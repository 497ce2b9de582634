import ReactiveMarkup.Proofs.RejectedPasses
import ReactiveMarkup.Proofs.SceneBranches

/-! Keyed lists in a scene. From when it is mounted until it is unmounted, a list shows the nodes of its entries, each under
one of its keys, or else its node for no items. -/

namespace ReactiveMarkup.Rendering

open ReactiveMarkup.Step ReactiveMarkup.Graph ReactiveMarkup.Machine Tidy Stocked

variable {Memory : Type} {α β : Type} {about more : NodeId → Prop} {scene inner : Scene} {start begun before middle between machine after : Stage Memory} {id kid : NodeId}
  {effect : Nat} {task : Task (Code Memory)} {calls : Calls (Host.rendering Memory)} {list : ListNode (Code Memory)} {shown : Prop} {target : Handle}

/-! Records of lists. -/

theorem Frame.exists_list (frame : Frame scene about start machine) (busy : scene.Busy id) (found : start.nodes[id]? = some (.list list)) :
    ∃ later : ListNode (Code Memory), machine.nodes[id]? = some (.list later) := by
  obtain ⟨later, foundLater, same⟩ := frame.exists_mold busy found
  cases later with
  | list later => exact ⟨later, foundLater⟩
  | _ => cases same

/-- The effect of a list is one that brings it up to date. -/
theorem Governs.of_list (governs : Governs scene machine effect task) (found : machine.nodes[id]? = some (.list list)) (isSubject : task.subject? = some id) :
    (∃ target, task = .items id target) ∧ (list.mounted = true ∨ scene.opened id) ∧ Lists machine list := by
  cases task with
  | items _ target =>
    cases isSubject
    obtain ⟨_, again, mounted, lists⟩ := governs
    cases found.symm.trans again
    exact ⟨⟨target, rfl⟩, mounted, lists⟩
  | text =>
    cases isSubject
    obtain ⟨_, again, _⟩ := governs
    cases found.symm.trans again
  | branches =>
    cases isSubject
    obtain ⟨_, again, _⟩ := governs
    cases found.symm.trans again
  | property | classes | host => cases isSubject

theorem mem_kids_of_entry {entry : String × ListEntry} (member : entry ∈ list.entries) : entry.2.node ∈ (Node.list list).kids :=
  List.mem_append_left _ (List.mem_map_of_mem member)

theorem mem_kids_of_empty {empty : NodeId} (isEmpty : list.empty = some empty) : empty ∈ (Node.list list).kids :=
  List.mem_append_right _ (Option.mem_toList.2 isEmpty)

/-- A list whose record keeps other effects is what it was. -/
theorem Lists.rekept {anchor : Anchor} {mounted : Bool} {disposables : List Disposable} (lists : Lists machine list) (apart : ∀ kid ∈ (Node.list list).kids, kid ≠ id) :
    Lists (recording machine id (.list { list with anchor, mounted, disposables })) { list with anchor, mounted, disposables } :=
  ⟨lists.keyed, fun entry member => (on_recording_of_ne (apart _ (mem_kids_of_entry member))).2 (lists.entries entry member),
    fun empty isEmpty => (on_recording_of_ne (apart _ (mem_kids_of_empty isEmpty))).trans (lists.empty empty isEmpty), lists.distinct, lists.complete⟩

/-- The node of an item is new. -/
theorem brings_buildItem (keeps : KeepsScenes calls) (tidy : Tidy scene machine) {builder : ItemBuilder (Code Memory)} (hosted : ∃ code, builder = .host code) (signal : Nat) :
    Ensures .any (Machine.buildItem calls builder signal) machine fun child after => Brings scene machine after child := by
  obtain ⟨code, rfl⟩ := hosted
  have readable : Tidy scene { machine with functions := machine.functions.push (.signal signal) } := tidy.carry rfl rfl rfl rfl rfl
  show Ensures .any (calls.build code [.function machine.functions.size, (machine.graph.value? signal).getD .undefined])
    { machine with functions := machine.functions.push (.signal signal) } _
  exact (keeps.build code _ readable).mono fun child after brings => ⟨brings.yields.carry rfl rfl rfl rfl rfl rfl rfl rfl, brings.fresh, brings.spare⟩

/-! What is right below a list changes. -/

/-- What steps under way need they need still, and it goes on. -/
def Spares (scene : Scene) (before after : Stage Memory) : Prop :=
  ∀ effect, Needed scene before effect → Needed scene after effect ∧ (before.graph.IsLive effect → after.graph.IsLive effect)

theorem Spares.refl : Spares scene machine machine := fun _ needed => ⟨needed, fun live => live⟩

theorem Spares.trans (first : Spares scene before middle) (second : Spares scene middle after) : Spares scene before after := fun effect needed =>
  let ⟨between, lives⟩ := first effect needed
  ⟨(second effect between).1, fun live => (second effect between).2 (lives live)⟩

theorem Frame.spares (frame : Frame scene about before after) : Spares scene before after := fun effect needed =>
  ⟨frame.needed needed, frame.spared effect needed⟩

/-- A step that only looks at the machine gives something that holds, and the machine stays the same. -/
theorem ensures_still {breaks : Breaks} {step : Act Memory α} {holds : α → Prop} {post : α → Stage Memory → Prop} (ensures : Ensures breaks step machine fun value _ => holds value)
    (silent : (step.run machine).2 = machine) (done : ∀ value, holds value → post value machine) : Ensures breaks step machine post := by
  unfold Ensures at ensures ⊢
  split
  next value after ran =>
    rw [ran] at silent ensures
    cases silent
    exact done value ensures
  next ran =>
    rw [ran] at ensures
    exact ensures
  next ran =>
    rw [ran] at ensures
    exact ensures

/-- What some nodes have made is taken out of the target in which they belong, and put elsewhere in it. -/
theorem Underway.moves {handles : List Handle} {nodes : List NodeId} (underway : Underway inner scene about start machine)
    (bears : ∀ stead, inner.stead = some stead → Bears inner machine target nodes handles)
    (home : ∀ stead, inner.stead = some stead → machine.document.Known target ∧ (stead.base ≤ target → ∃ owner, Owns machine owner target)) (spot : Option Handle) :
    Ensures .any (Machine.edit (Document.unmount handles target) >>= fun _ => Machine.edit (Document.mount handles target spot)) machine fun _ after =>
      ∃ document, after = { machine with document } ∧ Underway inner scene about start { machine with document } := by
  rw [ensures_bind, ensures_edit]
  refine ensures_any_of_done fun _ between ran => ?_
  rw [ensures_edit]
  refine ensures_any_of_done fun _ document done => ⟨document, rfl, underway.edit fun stead here => ?_⟩
  have placed := underway.tidy.placed stead here
  obtain ⟨distinct, owned⟩ := bears stead here
  obtain ⟨known, above⟩ := home stead here
  have mine (handle : Handle) (member : handle ∈ handles) : ∃ owner anchor, Owns machine owner handle ∧ Hangs inner machine owner target anchor := by
    obtain ⟨_, _, owner, anchor, _, owns, hangs⟩ := owned handle member
    exact ⟨owner, anchor, owns, hangs⟩
  obtain ⟨later, again, takenOut, history, subscriptions, _⟩ := placed.forest.unmount_cases target (fun handle member => by
    obtain ⟨owner, _, owns, _⟩ := mine handle member
    exact (placed.owned owner handle owns).2) distinct
  cases ran.symm.trans again
  exact placed.move mine here underway.tidy.arranged distinct known above takenOut history subscriptions done

/-- A list while what is right below it changes. All that its entries say is mounted. -/
structure Passing (scene inner : Scene) (about : NodeId → Prop) (id : NodeId) (target : Handle) (start begun : Stage Memory) (shown : Prop) (machine : Stage Memory)
    (list : ListNode (Code Memory)) : Prop where
  underway : Underway inner scene about start machine
  spares : Spares inner begun machine
  record : machine.nodes[id]? = some (.list list)
  entries : ∀ entry ∈ list.entries, On machine entry.2.node
  empty : ∀ empty ∈ list.empty, On machine empty ↔ shown
  hangs : Hangs inner machine id target list.anchor

/-- The nodes of some entries are on their way. -/
abbrev Scene.ferrying (scene : Scene) (waits : scene.still id) (entries : Entries ListEntry) : Scene :=
  scene.guarding waits fun kid key => ∃ entry ∈ entries, entry.2.node = kid ∧ key = some entry.1

/-- A node that was below a list, or is new, and has nothing above it any more. -/
structure Loose (id : NodeId) (start machine : Stage Memory) (kid : NodeId) : Prop where
  ours : Ours start id kid
  inside : kid < machine.nodes.size
  unclaimed : ∀ parent, kid ∉ kids machine parent

theorem Loose.later (loose : Loose id start machine kid) (frame : Frame scene about machine after) : Loose id start after kid :=
  ⟨loose.ours, Nat.lt_of_lt_of_le loose.inside frame.grows.size, fun parent member =>
    (frame.grows.kids parent kid member).elim (loose.unclaimed parent) fun new => absurd loose.inside (Nat.not_lt.2 new)⟩

theorem Station.ferries (station : Station scene inner id start) {ferried : Entries ListEntry} (ours : ∀ entry ∈ ferried, Ours start id entry.2.node) :
    Station scene (inner.ferrying station.waits ferried) id start :=
  station.guarding fun _ _ ⟨entry, member, same, _⟩ => same ▸ ours entry member

namespace Passing

variable (passing : Passing scene inner about id target start begun shown machine list)

include passing

theorem formed : Formed (.list list) := passing.underway.tidy.upright.formed id _ passing.record

theorem fair : Fair machine.graph (.list list) := passing.underway.tidy.upright.fair id _ passing.record

theorem distinct : (Node.list list).kids.Nodup := distinct_kids passing.underway.tidy.arranged passing.record

theorem edit {document : Document (Listener (Code Memory))} (underway : Underway inner scene about start { machine with document }) :
    Passing scene inner about id target start begun shown { machine with document } list :=
  ⟨underway, passing.spares, passing.record, passing.entries, passing.empty, passing.hangs.congr rfl rfl fun _ _ _ guarded => guarded⟩

theorem puts_entry {entry : String × ListEntry} (member : entry ∈ list.entries) : Hangs inner machine entry.2.node target (.item id entry.1) :=
  .kid passing.hangs passing.record ⟨rfl, .inr ⟨entry, member, rfl, rfl⟩⟩

/-- The nodes right below the list are apart from each other. -/
theorem node_ne {first second : String × ListEntry} (member : first ∈ list.entries) (memberToo : second ∈ list.entries) (apart : first.1 ≠ second.1) :
    first.2.node ≠ second.2.node := by
  intro same
  have distinct := (List.nodup_append.1 passing.distinct).1
  exact apart (congrArg Prod.fst (List.inj_on_of_nodup_map distinct member memberToo same))

theorem node_ne_empty {entry : String × ListEntry} (member : entry ∈ list.entries) {empty : NodeId} (isEmpty : list.empty = some empty) : entry.2.node ≠ empty :=
  (List.nodup_append.1 passing.distinct).2.2 _ (List.mem_map_of_mem member) _ (Option.mem_toList.2 isEmpty)

section

variable (station : Station scene inner id start)

include station

/-- A step goes on that is about other nodes. -/
theorem later (underway : Underway inner scene about start after) (frame : Frame inner more machine after) (apart : ∀ kid ∈ (Node.list list).kids, ¬ more kid) :
    Passing scene inner about id target start begun shown after list := by
  have same (kid : NodeId) (member : kid ∈ (Node.list list).kids) : On after kid ↔ On machine kid :=
    frame.on_kid passing.underway.tidy.arranged passing.underway.tidy.upright station.waits ((mem_kids passing.record).2 member) (apart kid member)
  exact ⟨underway, passing.spares.trans frame.spares, (frame.still id station.waits).trans passing.record,
    fun entry member => (same _ (mem_kids_of_entry member)).2 (passing.entries entry member),
    fun empty isEmpty => (same _ (mem_kids_of_empty isEmpty)).trans (passing.empty empty isEmpty),
    frame.hung id target list.anchor (.inr station.waits) passing.hangs⟩

/-- The node for no items is mounted or unmounted. -/
theorem emptied {changed : Prop} (underway : Underway inner scene about start after) (frame : Frame inner more machine after)
    (only : ∀ kid, more kid → list.empty = some kid) (now : ∀ empty ∈ list.empty, On after empty ↔ changed) :
    Passing scene inner about id target start begun changed after list := by
  refine ⟨underway, passing.spares.trans frame.spares, (frame.still id station.waits).trans passing.record, fun entry member => ?_, now,
    frame.hung id target list.anchor (.inr station.waits) passing.hangs⟩
  refine (frame.on_kid passing.underway.tidy.arranged passing.underway.tidy.upright station.waits ((mem_kids passing.record).2 (mem_kids_of_entry member)) fun isAbout => ?_).2
    (passing.entries entry member)
  exact passing.node_ne_empty member (only _ isAbout) rfl

/-- The list comes to have fewer entries and other keys. -/
theorem relist (keys : List String) {entries : Entries ListEntry} (fewer : entries.Sublist list.entries) (emptyMounted : Bool)
    (removed : ∀ entry ∈ list.entries, entry ∈ entries ∨ inner.wards id entry.2.node (some entry.1)) :
    Passing scene inner about id target start begun shown (recording machine id (.list { list with keys, entries, emptyMounted })) { list with keys, entries, emptyMounted } := by
  have same : (Node.list { list with keys, entries, emptyMounted } : Node (Code Memory)).disposables = (Node.list list).disposables := rfl
  have fewerKids : (Node.list { list with keys, entries, emptyMounted } : Node (Code Memory)).kids.Sublist (Node.list list).kids :=
    (fewer.map _).append (.refl _)
  have apart {kid : NodeId} (member : kid ∈ (Node.list list).kids) : kid ≠ id := passing.underway.tidy.apart passing.record member
  obtain ⟨items, tracker, builder, names⟩ := passing.formed
  have formed : Formed (.list { list with keys, entries, emptyMounted } : Node (Code Memory)) := ⟨items, tracker, builder, (fewer.map Prod.fst).nodup names⟩
  have fair : Fair machine.graph (.list { list with keys, entries, emptyMounted }) := fun entry member => passing.fair entry (fewer.subset member)
  refine ⟨?_, passing.spares.trans fun effect needed => ⟨?_, fun live => live⟩, recording_self passing.record, fun entry member => ?_, fun empty isEmpty => ?_,
    station.hangs_recording passing.underway passing.record passing.hangs⟩
  · refine station.rewrite passing.underway passing.record rfl formed fair (passing.distinct.sublist fewerKids) (fun kid member => .inl (fewerKids.subset member))
      (fun _ => rfl) (.inr rfl) (fun _ => Iff.rfl) fun stead here => ⟨.inl ?_, fun kid member => .inl (fewerKids.subset member), ?_, .inl, nofun, nofun, ?_⟩
    · rintro target anchor kid home place ⟨rfl, isEmpty | ⟨entry, member, rfl, rfl⟩⟩
      · exact .inl ⟨rfl, .inl isEmpty⟩
      · refine (removed entry member).imp (fun still => ⟨rfl, .inr ⟨entry, still, rfl, rfl⟩⟩) fun guarded => ⟨some entry.1, guarded, rfl, rfl⟩
    · rintro kid key guarded target anchor home place ⟨rfl, puts⟩
      refine ((passing.underway.tidy.placed stead here).wards id kid key guarded).place _ home anchor home place passing.record ⟨rfl, puts.imp_right ?_⟩
      exact fun ⟨entry, member, same⟩ => ⟨entry, fewer.subset member, same⟩
    · rintro _ ⟨⟩
      exact ⟨_, rfl, .inl rfl⟩
  · exact needed.imp_right fun ⟨keeper, busy, isKept⟩ => ⟨keeper, busy, (keeps_recording passing.record same keeper _).2 isKept⟩
  · exact (on_recording_of_ne (apart (mem_kids_of_entry (fewer.subset member)))).2 (passing.entries entry (fewer.subset member))
  · exact (on_recording_of_ne (apart (mem_kids_of_empty isEmpty))).trans (passing.empty empty isEmpty)

omit station in
/-- A node that a list lets go of. -/
theorem loosened {keys : List String} {entries : Entries ListEntry} {emptyMounted : Bool} (member : kid ∈ (Node.list list).kids)
    (gone : kid ∉ (Node.list { list with keys, entries, emptyMounted } : Node (Code Memory)).kids) :
    Loose id start (recording machine id (.list { list with keys, entries, emptyMounted })) kid := by
  have isKid : kid ∈ kids machine id := (mem_kids passing.record).2 member
  refine ⟨passing.underway.frame.ours isKid, ?_, fun parent below => ?_⟩
  · rw [size_recording]
    exact passing.underway.tidy.upright.known id kid isKid
  · by_cases here : parent = id
    · rw [here, kids_recording_self passing.record] at below
      exact gone below
    · rw [kids_recording_of_ne here] at below
      exact here (passing.underway.tidy.only isKid parent below)

/-! Nodes on their way out of a list or into it. -/

section

variable {ferried : Entries ListEntry}

omit station in
theorem ours_of_entries (some : ferried ⊆ list.entries) (entry : String × ListEntry) (member : entry ∈ ferried) : Ours start id entry.2.node :=
  passing.underway.frame.ours ((mem_kids passing.record).2 (mem_kids_of_entry (some member)))

/-- Entries of the list are about to leave. -/
theorem departs (free : ∀ kid key, ¬ inner.wards id kid key) (some : ferried ⊆ list.entries) :
    Passing scene (inner.ferrying station.waits ferried) about id target start begun shown machine list := by
  refine ⟨{ passing.underway with tidy := passing.underway.tidy.guard station.waits fun stead here kid key isFerried => ?_ }, passing.spares, passing.record, passing.entries,
    passing.empty, passing.hangs.congr rfl rfl fun _ _ _ => .inl⟩
  obtain ⟨entry, member, rfl, rfl⟩ := isFerried
  have inside := some member
  have isKid : entry.2.node ∈ kids machine id := (mem_kids passing.record).2 (mem_kids_of_entry inside)
  have tidy := passing.underway.tidy
  refine ⟨tidy.upright.known id _ isKid, fun isRoot => (tidy.arranged.roots _ isRoot).2 id isKid, tidy.only isKid, fun node above anchor home place found puts => ?_,
    fun other again guarded => ?_, ?_⟩
  · cases passing.record.symm.trans found
    have isPut : (Node.list list).Puts id above anchor entry.2.node above (.item id entry.1) := ⟨rfl, .inr ⟨entry, inside, rfl, rfl⟩⟩
    exact Puts.unique passing.distinct isPut puts
  · cases ((tidy.placed stead here).wards other _ again guarded).above id isKid
    exact free _ again guarded
  · rintro _ ⟨other, isOther, same, rfl⟩
    rw [List.inj_on_of_nodup_map (List.nodup_append.1 passing.distinct).1 (some isOther) inside same]

/-- A node that nothing is above is about to become that of an entry. -/
theorem awaits (key : String) (spare : Spare inner machine kid) (inside : kid < machine.nodes.size) (signal : Nat) :
    Passing scene (inner.ferrying station.waits [(key, ⟨signal, kid⟩)]) about id target start begun shown machine list := by
  refine ⟨{ passing.underway with tidy := passing.underway.tidy.guard station.waits fun stead here other again isFerried => ?_ }, passing.spares, passing.record, passing.entries,
    passing.empty, passing.hangs.congr rfl rfl fun _ _ _ => .inl⟩
  obtain ⟨entry, member, rfl, rfl⟩ := isFerried
  obtain rfl := List.mem_singleton.1 member
  refine ⟨inside, spare.rootless, fun parent member => absurd member (spare.unclaimed parent), fun node above anchor home place found puts => ?_, spare.wardless stead here, ?_⟩
  · exact absurd ((mem_kids found).2 (Puts.mem_kids puts)) (spare.unclaimed id)
  · rintro _ ⟨other, isOther, _, rfl⟩
    obtain rfl := List.mem_singleton.1 isOther
    rfl

omit passing in
/-- All that was on its way has arrived, or is not mounted any more. -/
theorem settles (ferrying : Passing scene (inner.ferrying station.waits ferried) about id target start begun shown after list)
    (arrived : ∀ entry ∈ ferried, entry ∈ list.entries ∨ (Ours start id entry.2.node ∧ ¬ On after entry.2.node)) :
    Passing scene inner about id target start begun shown after list := by
  have lands (kid : NodeId) (key : Option String) (isFerried : ∃ entry ∈ ferried, entry.2.node = kid ∧ key = some entry.1) :
      (∀ target anchor, Hangs inner after id target anchor → Hangs inner after kid target (key.elim anchor (.item id))) ∨
        (Clear inner after kid ∧ ∀ other, Below after kid other → ¬ On after other) := by
    obtain ⟨entry, member, rfl, rfl⟩ := isFerried
    refine (arrived entry member).imp (fun inside target anchor above => .kid above ferrying.record ⟨rfl, .inr ⟨entry, inside, rfl, rfl⟩⟩) fun ⟨ours, off⟩ => ?_
    have clear := station.clear ours ferrying.underway.frame.grows
    exact ⟨clear, ferrying.underway.tidy.dark clear off⟩
  refine ⟨{ ferrying.underway with tidy := ferrying.underway.tidy.unguard fun stead here => lands }, ferrying.spares, ferrying.record, ferrying.entries, ferrying.empty,
    ferrying.hangs.unguard fun kid key isFerried => (lands kid key isFerried).imp_right fun ⟨clear, _⟩ => ⟨clear, fun below => clear id below (.inr station.waits)⟩⟩

end

variable (keeps : KeepsScenes calls)

include keeps

/-- A node that nothing is above any more is unmounted. -/
theorem unmounts_loose (loose : Loose id start machine kid) (guarded : ∃ key, inner.wards id kid (some key)) :
    Ensures .any (calls.unmount kid target) machine fun _ after =>
      Passing scene inner about id target start begun shown after list ∧ Frame inner (· = kid) machine after ∧ ¬ On after kid := by
  obtain ⟨key, guarded⟩ := guarded
  refine (station.unmount loose.ours keeps passing.underway (fun parent member => absurd member (loose.unclaimed parent)) target ⟨_, .ward passing.hangs guarded⟩).mono
    fun _ after ⟨underway, yields, off⟩ => ⟨passing.later station underway yields.frame fun other member same => ?_, yields.frame, off⟩
  exact loose.unclaimed id ((mem_kids passing.record).2 (same ▸ member))

theorem unmounts_entries {entries : Entries ListEntry} (loose : ∀ entry ∈ entries, Loose id start machine entry.2.node)
    (guarded : ∀ entry ∈ entries, inner.wards id entry.2.node (some entry.1)) (names : (entries.map Prod.fst).Nodup) (keys : List String) :
    Ensures .any (unmountEntries calls target entries keys) machine fun _ after => Passing scene inner about id target start begun shown after list ∧
      ∀ entry ∈ entries, entry.1 ∈ keys ∨ ¬ On machine entry.2.node → ¬ On after entry.2.node := by
  induction keys generalizing machine with
  | nil => exact ⟨passing, fun _ _ either => either.resolve_left List.not_mem_nil⟩
  | cons key rest ih =>
    unfold unmountEntries
    split
    next entry found =>
      have isEntry := Entries.mem_of_get? found
      rw [ensures_bind]
      refine (passing.unmounts_loose station keeps (loose _ isEntry) ⟨key, guarded _ isEntry⟩).mono fun _ between ⟨passing, frame, off⟩ => ?_
      refine (ih passing fun entry member => (loose entry member).later frame).mono fun _ after ⟨passing, hidden⟩ => ⟨passing, fun other member either => hidden other member ?_⟩
      by_cases here : other.2.node = entry.node
      · exact .inr (here ▸ off)
      · refine either.imp (fun listed => (List.mem_cons.1 listed).resolve_left fun same => here ?_) fun was on => was ?_
        · obtain ⟨name, other⟩ := other
          cases same
          cases (Entries.get?_of_mem names member).symm.trans found
          rfl
        · exact (frame.loose _ (loose other member).inside here fun parent above => absurd above ((loose other member).unclaimed parent)).1 on
    next absent =>
      refine (ih passing loose).mono fun _ after ⟨passing, hidden⟩ => ⟨passing, fun other member either => hidden other member ?_⟩
      refine either.imp_left fun listed => (List.mem_cons.1 listed).resolve_left fun same => ?_
      obtain ⟨name, other⟩ := other
      cases same
      cases (Entries.get?_of_mem names member).symm.trans absent

variable (free : ∀ kid key, ¬ inner.wards id kid key)

include free

/-- All items are unmounted. -/
theorem unmounts_items (keyed : ∀ entry ∈ list.entries, entry.1 ∈ list.keys) : Ensures .any (unmountItems calls id target) machine fun _ after =>
    Passing scene inner about id target start begun shown after { list with keys := [], entries := [] } := by
  rw [unmountItems, ensures_bind, ensures_list? passing.record]
  dsimp only
  rw [ensures_bind, ensures_modifyList passing.record]
  have all : list.entries ⊆ list.entries := fun _ member => member
  have ferries := station.ferries (passing.ours_of_entries all)
  have departing := passing.departs station free all
  have emptied : Passing scene (inner.ferrying station.waits list.entries) about id target start begun shown
      (recording machine id (.list { list with keys := [], entries := [] })) { list with keys := [], entries := [] } :=
    departing.relist ferries [] (List.nil_sublist _) list.emptyMounted fun entry member => .inr (.inr ⟨rfl, entry, member, rfl, rfl⟩)
  have loose (entry : String × ListEntry) (member : entry ∈ list.entries) :
      Loose id start (recording machine id (.list { list with keys := [], entries := [] })) entry.2.node := by
    refine passing.loosened (mem_kids_of_entry member) fun still => ?_
    have isEmpty := Option.mem_toList.1 ((List.mem_append.1 still).resolve_left List.not_mem_nil)
    exact passing.node_ne_empty member isEmpty rfl
  refine (emptied.unmounts_entries ferries keeps loose (fun entry member => .inr ⟨rfl, entry, member, rfl, rfl⟩) passing.formed.2.2.2 _).mono fun _ after ⟨going, hidden⟩ => ?_
  exact going.settles station fun entry member => .inr ⟨(loose entry member).ours, hidden entry member (.inl (List.mem_reverse.2 (keyed entry member)))⟩

/-- The nodes of some keys that are not wanted are unmounted. -/
theorem removes_vanished (wanted old : List String) : Ensures .any (removeVanished calls id target wanted old) machine fun _ after =>
    ∃ entries, entries.Sublist list.entries ∧ (∀ entry ∈ entries, entry.1 ∈ old → entry.1 ∈ wanted) ∧
      Passing scene inner about id target start begun shown after { list with entries } := by
  induction old generalizing machine list with
  | nil => exact ⟨list.entries, .refl _, fun _ _ never => absurd never List.not_mem_nil, passing⟩
  | cons key rest ih =>
    unfold removeVanished
    split
    next unwanted =>
      rw [ensures_bind, ensures_list? passing.record]
      dsimp only
      rw [ensures_bind, ensures_modifyList passing.record]
      have fewer : (Entries.erase list.entries key).Sublist list.entries := List.filter_sublist
      have some : list.entries.filter (·.1 == key) ⊆ list.entries := fun _ member => (List.mem_filter.1 member).1
      have ferries := station.ferries (passing.ours_of_entries some)
      have erased : Passing scene (inner.ferrying station.waits (list.entries.filter (·.1 == key))) about id target start begun shown
          (recording machine id (.list { list with entries := Entries.erase list.entries key })) { list with entries := Entries.erase list.entries key } := by
        refine (passing.departs station free some).relist ferries list.keys fewer list.emptyMounted fun entry member => ?_
        by_cases here : entry.1 = key
        · exact .inr (.inr ⟨rfl, entry, List.mem_filter.2 ⟨member, by simpa using here⟩, rfl, rfl⟩)
        · exact .inl (List.mem_filter.2 ⟨member, by simpa using here⟩)
      have goes {between : Stage Memory} (passing : Passing scene inner about id target start begun shown between { list with entries := Entries.erase list.entries key }) :
          Ensures .any (removeVanished calls id target wanted rest) between fun _ after => ∃ entries, entries.Sublist list.entries ∧
            (∀ entry ∈ entries, entry.1 ∈ key :: rest → entry.1 ∈ wanted) ∧ Passing scene inner about id target start begun shown after { list with entries } := by
        refine (ih passing).mono fun _ after removed => ?_
        obtain ⟨entries, sublist, kept, passing⟩ := removed
        refine ⟨entries, sublist.trans fewer, fun entry member known => ?_, passing⟩
        obtain rfl | known := List.mem_cons.1 known
        · have apart := (List.mem_filter.1 (sublist.subset member)).2
          simp at apart
        · exact kept entry member known
      have names : (list.entries.map Prod.fst).Nodup := passing.formed.2.2.2
      split
      next entry found =>
        rw [ensures_bind]
        have member := Entries.mem_of_get? found
        have loose : Loose id start (recording machine id (.list { list with entries := Entries.erase list.entries key })) entry.node := by
          refine passing.loosened (mem_kids_of_entry member) fun still => ?_
          obtain inEntries | inEmpty := List.mem_append.1 still
          · obtain ⟨other, isOther, same⟩ := List.mem_map.1 inEntries
            obtain ⟨inside, apart⟩ := List.mem_filter.1 isOther
            exact passing.node_ne inside member (by simpa using apart) same
          · exact passing.node_ne_empty member (Option.mem_toList.1 inEmpty) rfl
        refine (erased.unmounts_loose ferries keeps loose ⟨key, .inr ⟨rfl, (key, entry), List.mem_filter.2 ⟨member, by simp⟩, rfl, rfl⟩⟩).mono fun _ between ⟨going, _, off⟩ =>
          goes (going.settles station fun other isFerried => ?_)
        obtain ⟨inside, here⟩ := List.mem_filter.1 isFerried
        obtain ⟨name, other⟩ := other
        obtain rfl : name = key := by simpa using here
        cases (Entries.get?_of_mem names inside).symm.trans found
        exact .inr ⟨loose.ours, off⟩
      next absent =>
        refine goes (erased.settles station fun other isFerried => ?_)
        obtain ⟨inside, here⟩ := List.mem_filter.1 isFerried
        obtain ⟨name, other⟩ := other
        obtain rfl : name = key := by simpa using here
        cases (Entries.get?_of_mem names inside).symm.trans absent
    next isWanted =>
      refine (ih passing).mono fun _ after removed => ?_
      obtain ⟨entries, sublist, kept, passing⟩ := removed
      refine ⟨entries, sublist, fun entry member known => ?_, passing⟩
      obtain rfl | known := List.mem_cons.1 known
      · simpa using isWanted
      · exact kept entry member known

omit free in
/-- What the node of an entry shows is moved to where it belongs. -/
theorem moves_intoPlace (index : Nat) {entry : String × ListEntry} (member : entry ∈ list.entries) :
    Ensures .any (moveIntoPlace calls id target index entry.2.node) machine fun _ after => Passing scene inner about id target start begun shown after list := by
  have clear := station.clear (passing.underway.frame.ours ((mem_kids passing.record).2 (mem_kids_of_entry member))) passing.underway.frame.grows
  rw [moveIntoPlace, ensures_bind]
  refine ensures_still (keeps.elements _ target _ passing.underway.tidy clear (passing.puts_entry member)) (keeps.trees.elements _ machine) fun handles bears => ?_
  have moves (place : Option Handle) (inPlace : Bool) :
      Ensures .any (if inPlace = true then pure () else Machine.edit (Document.unmount handles target) >>= fun _ => Machine.edit (Document.mount handles target place) : Act Memory Unit)
        machine fun _ after => Passing scene inner about id target start begun shown after list := by
    split
    · exact passing
    · refine (passing.underway.moves bears (fun stead here => ?_) place).mono fun _ after moved => ?_
      · have placed := passing.underway.tidy.placed stead here
        exact ⟨placed.known_home here passing.hangs, placed.owner_of_home here passing.hangs⟩
      · obtain ⟨document, rfl, underway⟩ := moved
        exact passing.edit underway
  dsimp only
  split
  next => exact passing
  next =>
    rw [ensures_bind, ensures_list? passing.record]
    dsimp only
    rw [ensures_bind]
    refine ensures_of_silent trivial trivial (silent_anchorBefore keeps.trees.resolve keeps.trees.elements list index machine) fun place => ?_
    split
    next place =>
      rw [ensures_bind, ensures_edit]
      refine (Document.silent_isAfter handles place machine.document).mono fun inPlace document same => ?_
      subst same
      exact moves (some place) inPlace
    next =>
      rw [ensures_bind, ensures_edit]
      refine (Document.silent_isFirst handles target machine.document).mono fun inPlace document same => ?_
      subst same
      exact moves none inPlace

omit free in
/-- The signal of an item takes another item. -/
theorem writes_item (calm : Calm inner start) {entry : String × ListEntry} (member : entry ∈ list.entries) (item : Value) :
    Ensures .any (writeSignal calls entry.2.signal item) machine fun _ after => Passing scene inner about id target start begun shown after list := by
  obtain ⟨held, signal⟩ := passing.fair entry member
  refine (strays_writeSignal keeps passing.underway.tidy (calm.carry passing.underway.depth) signal item).mono fun _ after strays => ?_
  exact passing.later station (passing.underway.within station strays.toUnderway fun _ => False.elim) strays.frame fun _ _ => False.elim

omit keeps free in
/-- A node that nothing is above becomes that of a new entry. -/
theorem relist_add {key : String} (fresh : Entries.get? list.entries key = none) {entry : ListEntry} {value : Value} (isNew : start.nodes.size ≤ entry.node)
    (inside : entry.node < machine.nodes.size) (beside : ¬ Below machine entry.node id) (rootless : entry.node ∉ machine.world.roots)
    (unclaimed : ∀ parent, entry.node ∉ kids machine parent) (guarded : inner.wards id entry.node (some key)) (on : On machine entry.node) (signal : machine.graph.content? entry.signal = some (.signal value)) :
    Passing scene inner about id target start begun shown (recording machine id (.list { list with entries := list.entries ++ [(key, entry)] }))
      { list with entries := list.entries ++ [(key, entry)] } := by
  have same : (Node.list { list with entries := list.entries ++ [(key, entry)] } : Node (Code Memory)).disposables = (Node.list list).disposables := rfl
  have apart {kid : NodeId} (member : kid ∈ (Node.list list).kids) : kid ≠ id := passing.underway.tidy.apart passing.record member
  have away : entry.node ≠ id := fun here => beside (here ▸ .refl)
  have kids_cases {kid : NodeId} (member : kid ∈ (Node.list { list with entries := list.entries ++ [(key, entry)] } : Node (Code Memory)).kids) :
      kid ∈ (Node.list list).kids ∨ kid = entry.node := by
    simp only [Node.kids, List.map_append, List.map_cons, List.map_nil, List.mem_append, List.mem_singleton] at member ⊢
    tauto
  obtain ⟨items, tracker, builder, names⟩ := passing.formed
  have formed : Formed (.list { list with entries := list.entries ++ [(key, entry)] } : Node (Code Memory)) := by
    refine ⟨items, tracker, builder, ?_⟩
    rw [← Entries.put_of_fresh fresh entry]
    exact Entries.nodup_put names key entry
  have fair : Fair machine.graph (.list { list with entries := list.entries ++ [(key, entry)] }) := by
    intro other member
    obtain old | isNew := List.mem_append.1 member
    · exact passing.fair other old
    · exact ⟨value, List.mem_singleton.1 isNew ▸ signal⟩
  have distinct : (Node.list { list with entries := list.entries ++ [(key, entry)] } : Node (Code Memory)).kids.Nodup := by
    have isFresh : entry.node ∉ (Node.list list).kids := fun member => unclaimed id ((mem_kids passing.record).2 member)
    have order : (Node.list { list with entries := list.entries ++ [(key, entry)] } : Node (Code Memory)).kids.Perm (entry.node :: (Node.list list).kids) := by
      simp only [Node.kids, List.map_append, List.map_cons, List.map_nil, List.append_assoc]
      exact List.perm_middle
    exact order.nodup_iff.2 (List.nodup_cons.2 ⟨isFresh, passing.distinct⟩)
  refine ⟨?_, passing.spares.trans fun effect needed => ⟨?_, fun live => live⟩, recording_self passing.record, fun other member => ?_, fun empty isEmpty => ?_,
    station.hangs_recording passing.underway passing.record passing.hangs⟩
  · refine station.rewrite passing.underway passing.record rfl formed fair distinct (fun kid member => (kids_cases member).imp_right ?_) (fun _ => rfl) (.inr rfl) (fun _ => Iff.rfl)
      fun stead here => ⟨.inl fun _ _ _ _ _ puts => .inl (puts.imp_right (.imp_right (.imp fun _ => .imp_left (List.mem_append_left _)))),
        fun kid member => (kids_cases member).imp_right ?_, ?_, .inl, (fun _ isHandle => by cases isHandle), (fun _ isHandle => by cases isHandle), ?_⟩
    · rintro rfl
      exact ⟨isNew, inside, beside, rootless, unclaimed⟩
    · rintro rfl
      exact ⟨some key, guarded⟩
    · rintro kid again guardedToo target anchor home place ⟨rfl, puts⟩
      have warded := (passing.underway.tidy.placed stead here).wards id kid again guardedToo
      obtain isEmpty | ⟨other, member, rfl, rfl⟩ := puts
      · exact warded.place _ home anchor home place passing.record ⟨rfl, .inl isEmpty⟩
      · obtain old | isNew := List.mem_append.1 member
        · exact warded.place _ home anchor home _ passing.record ⟨rfl, .inr ⟨other, old, rfl, rfl⟩⟩
        · obtain rfl := List.mem_singleton.1 isNew
          obtain ⟨_, rfl⟩ := warded.sole id (some key) guarded
          exact ⟨rfl, rfl⟩
    · rintro _ ⟨⟩
      exact ⟨_, rfl, .inl rfl⟩
  · refine needed.imp_right fun kept => ?_
    obtain ⟨keeper, busy, isKept⟩ := kept
    exact ⟨keeper, busy, (keeps_recording passing.record same keeper _).2 isKept⟩
  · obtain old | isNew := List.mem_append.1 member
    · exact (on_recording_of_ne (apart (mem_kids_of_entry old))).2 (passing.entries other old)
    · rw [List.mem_singleton.1 isNew]
      exact (on_recording_of_ne away).2 on
  · exact (on_recording_of_ne (apart (mem_kids_of_empty isEmpty))).trans (passing.empty empty isEmpty)

omit free in
/-- A new item gets a signal and a node. -/
theorem adds_item (calm : Calm inner start) {key : String} (fresh : Entries.get? list.entries key = none) (item : Value) :
    Ensures .any (addItem calls id target list.builder key item) machine fun _ after =>
      ∃ entry, Passing scene inner about id target start begun shown after { list with entries := list.entries ++ [(key, entry)] } := by
  have builder := passing.formed.2.2.1
  have signalled : (machine.graph.add (.signal item)).2.content? machine.graph.vertices.size = some (.signal item) := by
    rw [content?_add, if_pos rfl]
  have strays : Strays inner machine { machine with graph := (machine.graph.add (.signal item)).2 } :=
    .of_aside passing.underway.tidy (.add passing.underway.tidy.upright nofun nofun) fun _ empty => empty
  have given := passing.later station (passing.underway.within station strays.toUnderway fun _ => False.elim) strays.frame fun _ _ => False.elim
  have inside : id < machine.nodes.size := inside_of_found passing.record
  show Ensures .any (holding [] (Machine.buildItem calls list.builder machine.graph.vertices.size) >>= fun child =>
    holding [.node child] (calls.mount child target (.item id key)) >>= fun _ =>
      modifyList id fun node => { node with entries := Entries.put node.entries key ⟨machine.graph.vertices.size, child⟩ })
    { machine with graph := (machine.graph.add (.signal item)).2 } _
  rw [ensures_bind, ensures_holding]
  refine (brings_buildItem keeps given.underway.tidy builder _).mono fun child made ⟨yields, new, spare⟩ => ?_
  have making : Yields inner (fun _ => False) { machine with graph := (machine.graph.add (.signal item)).2 } { made with held := machine.held } :=
    yields.carry rfl rfl rfl rfl rfl rfl rfl rfl
  have sofar := given.later station (given.underway.within station making fun _ => False.elim) making.frame fun _ _ => False.elim
  have isNew : start.nodes.size ≤ child := Nat.le_trans passing.underway.frame.grows.size new.1
  have ferries : Station scene (inner.ferrying station.waits [(key, ⟨machine.graph.vertices.size, child⟩)]) id start :=
    station.ferries fun entry member => List.mem_singleton.1 member ▸ .inr isNew
  have coming := sofar.awaits station key ⟨spare.unclaimed, spare.off, spare.rootless, spare.idle, spare.wardless⟩ new.2 machine.graph.vertices.size
  rw [ensures_bind, ensures_holding]
  have only : ∀ parent, child ∈ kids made parent → parent = id := fun parent member => absurd member (spare.unclaimed parent)
  have heldLater : Underway (inner.ferrying station.waits [(key, ⟨machine.graph.vertices.size, child⟩)]) scene about start { made with held := [.node child] ++ machine.held } :=
    coming.underway.carry rfl rfl rfl rfl rfl rfl rfl rfl
  have guarded : (inner.ferrying station.waits [(key, ⟨machine.graph.vertices.size, child⟩)]).wards id child (some key) :=
    .inr ⟨rfl, _, List.mem_singleton_self _, rfl, rfl⟩
  have hangs : Hangs (inner.ferrying station.waits [(key, ⟨machine.graph.vertices.size, child⟩)]) { made with held := [.node child] ++ machine.held } child target (.item id key) :=
    (Hangs.ward coming.hangs guarded).congr rfl rfl fun _ _ _ guarded => guarded
  refine (ferries.mount (.inr isNew) keeps heldLater only target calm new.2 spare.off hangs).mono fun _ last ⟨underway, mounting, on⟩ => ?_
  have showing : Yields (inner.ferrying station.waits [(key, ⟨machine.graph.vertices.size, child⟩)]) (· = child) { made with held := machine.held } { last with held := machine.held } :=
    mounting.carry rfl rfl rfl rfl rfl rfl rfl rfl
  have shows := showing.frame
  have done : Passing scene (inner.ferrying station.waits [(key, ⟨machine.graph.vertices.size, child⟩)]) about id target start begun shown { last with held := machine.held } list := by
    refine coming.later ferries (underway.carry rfl rfl rfl rfl rfl rfl rfl rfl) shows fun kid member same => ?_
    exact spare.unclaimed id ((mem_kids coming.record).2 (same ▸ member))
  have grown := making.frame.grows.trans shows.grows
  obtain ⟨value, signal⟩ := (making.frame.steady.trans shows.steady).signals _ item signalled
  rw [ensures_modifyList done.record, Entries.put_of_fresh fresh]
  have listed : Passing scene (inner.ferrying station.waits [(key, ⟨machine.graph.vertices.size, child⟩)]) about id target start begun shown
      (recording { last with held := machine.held } id (.list { list with entries := list.entries ++ [(key, ⟨machine.graph.vertices.size, child⟩)] }))
      { list with entries := list.entries ++ [(key, ⟨machine.graph.vertices.size, child⟩)] } := by
    refine done.relist_add ferries fresh isNew (Nat.lt_of_lt_of_le new.2 shows.grows.size) (fun below => ?_) (shows.roots ▸ spare.rootless) (fun parent member => ?_) guarded on signal
    · exact absurd inside (Nat.not_lt.2 (grown.new_of_below new.1 below))
    · exact (shows.grows.kids parent child member).elim (spare.unclaimed parent) fun again => absurd new.2 (Nat.not_lt.2 again)
  exact ⟨_, listed.settles station fun entry member => .inl (List.mem_append_right _ member)⟩

omit free in
/-- Each item is brought to its place. -/
theorem places_items (calm : Calm inner start) (index : Nat) (items : List (String × Value)) :
    Ensures .any (placeItems calls id target index items) machine fun _ after => ∃ entries, list.entries ⊆ entries ∧
      (∀ entry ∈ entries, entry ∈ list.entries ∨ entry.1 ∈ items.map Prod.fst) ∧ (∀ key ∈ items.map Prod.fst, ∃ entry ∈ entries, entry.1 = key) ∧
      Passing scene inner about id target start begun shown after { list with entries } := by
  induction items generalizing machine list index with
  | nil => exact ⟨list.entries, fun _ member => member, fun _ => .inl, nofun, passing⟩
  | cons first rest ih =>
    obtain ⟨key, item⟩ := first
    rw [placeItems, ensures_bind, ensures_list? passing.record]
    dsimp only
    split
    next entry found =>
      have member := Entries.mem_of_get? found
      rw [ensures_bind]
      refine (passing.moves_intoPlace station keeps index member).mono fun _ between passing => ?_
      rw [ensures_bind]
      refine (passing.writes_item station keeps calm member item).mono fun _ between passing => ?_
      refine (ih passing (index + 1)).mono fun _ after placed => ?_
      obtain ⟨entries, still, known, each, passing⟩ := placed
      refine ⟨entries, still, fun entry member => (known entry member).imp_right (List.mem_cons_of_mem _), fun name isName => ?_, passing⟩
      obtain rfl | later := List.mem_cons.1 isName
      · exact ⟨_, still member, rfl⟩
      · exact each name later
    next fresh =>
      rw [ensures_bind]
      refine (passing.adds_item station keeps calm fresh item).mono fun _ between adding => ?_
      obtain ⟨added, passing⟩ := adding
      refine (ih passing (index + 1)).mono fun _ after placed => ?_
      obtain ⟨entries, still, known, each, passing⟩ := placed
      refine ⟨entries, fun entry member => still (List.mem_append_left _ member), fun entry member => ?_, fun name isName => ?_, passing⟩
      · obtain inList | named := known entry member
        · refine (List.mem_append.1 inList).imp_right fun isAdded => ?_
          rw [List.mem_singleton.1 isAdded]
          exact List.mem_cons_self
        · exact .inr (List.mem_cons_of_mem _ named)
      · obtain rfl | later := List.mem_cons.1 isName
        · exact ⟨_, still (List.mem_append_right _ (List.mem_singleton_self _)), rfl⟩
        · exact each name later

/-- Items with keys of their own are shown. -/
theorem shows_items (calm : Calm inner start) (keyed : ∀ entry ∈ list.entries, entry.1 ∈ list.keys) (items : List Value) (keys : List String)
    (even : keys.length = items.length) :
    Ensures .any (showItems calls id target items keys) machine fun _ after => ∃ entries, (∀ entry ∈ entries, entry.1 ∈ keys) ∧ keys.Nodup ∧
      (∀ key ∈ keys, ∃ entry ∈ entries, entry.1 = key) ∧ Passing scene inner about id target start begun shown after { list with keys, entries } := by
  have names : (keys.zip items).map Prod.fst = keys := List.map_fst_zip (Nat.le_of_eq even)
  unfold showItems
  split
  next => trivial
  next unrepeated =>
    rw [ensures_bind, ensures_list? passing.record]
    dsimp only
    rw [ensures_bind, ensures_modifyList passing.record, ensures_bind]
    have renamed : Passing scene inner about id target start begun shown (recording machine id (.list { list with keys })) { list with keys } :=
      passing.relist station keys (.refl list.entries) list.emptyMounted fun _ => .inl
    refine (renamed.removes_vanished station keeps free keys list.keys).mono fun _ between ⟨entries, sublist, wanted, passing⟩ => ?_
    refine (passing.places_items station keeps calm 0 (keys.zip items)).mono fun _ after ⟨entries, _, known, each, passing⟩ => ⟨entries, fun entry member => ?_, ?_, ?_, passing⟩
    · obtain old | named := known entry member
      · exact wanted entry old (keyed entry (sublist.subset old))
      · rwa [names] at named
    · by_contra repeated
      obtain ⟨key, isRepeated, _⟩ := exists_firstRepeated repeated
      cases unrepeated.symm.trans isRepeated
    · rwa [names] at each

end

end Passing

/-- A list that shows its entries, or else its node for no items. -/
structure Listing (scene inner : Scene) (about : NodeId → Prop) (id : NodeId) (target : Handle) (start begun machine : Stage Memory) (list : ListNode (Code Memory)) : Prop
    extends Passing scene inner about id target start begun (list.emptyMounted = true) machine list where
  keyed : ∀ entry ∈ list.entries, entry.1 ∈ list.keys
  separate : list.keys.Nodup
  complete : ∀ key ∈ list.keys, ∃ entry ∈ list.entries, entry.1 = key

namespace Listing

variable (listing : Listing scene inner about id target start begun machine list) (station : Station scene inner id start) (keeps : KeepsScenes calls)

include listing station keeps

theorem hides_empty : Ensures .any (hideEmpty calls id target) machine fun _ after => ∃ emptyMounted,
    Listing scene inner about id target start begun after { list with emptyMounted } := by
  rw [hideEmpty, ensures_bind, ensures_list? listing.record]
  dsimp only
  split
  next => exact ⟨list.emptyMounted, listing⟩
  next =>
    rw [ensures_bind]
    refine (station.unmounts_all keeps target list.empty.toList listing.underway listing.record listing.hangs fun kid member =>
      ⟨list.anchor, rfl, .inl ⟨Option.mem_toList.1 member, rfl⟩⟩).mono fun _ hidden moves => ?_
    have unmounted : Passing scene inner about id target start begun False hidden list :=
      listing.toPassing.emptied station moves.underway moves.frame (fun kid member => Option.mem_toList.1 member) fun empty isEmpty =>
        moves.moved empty (Option.mem_toList.2 isEmpty)
    rw [ensures_modifyList unmounted.record]
    have written : Passing scene inner about id target start begun False (recording hidden id (.list { list with emptyMounted := false })) { list with emptyMounted := false } :=
      unmounted.relist station list.keys (.refl _) false fun _ => .inl
    refine ⟨false, ⟨written.underway, written.spares, written.record, written.entries, fun empty isEmpty => ?_, written.hangs⟩, listing.keyed, listing.separate, listing.complete⟩
    exact (written.empty empty isEmpty).trans (iff_of_false (fun never => never) Bool.false_ne_true)

variable (free : ∀ kid key, ¬ inner.wards id kid key)

include free

/-- The node for no items is shown. -/
theorem shows_empty (calm : Calm inner start) {empty : NodeId} (isEmpty : list.empty = some empty) :
    Ensures .any (showEmpty calls id target empty) machine fun _ after => ∃ keys entries emptyMounted,
      Listing scene inner about id target start begun after { list with keys, entries, emptyMounted } := by
  rw [showEmpty, ensures_bind, ensures_list? listing.record]
  dsimp only
  split
  next => exact ⟨list.keys, list.entries, list.emptyMounted, listing⟩
  next hidden =>
    rw [ensures_bind]
    refine (listing.toPassing.unmounts_items station keeps free listing.keyed).mono fun _ between passing => ?_
    rw [ensures_bind]
    have isKid : empty ∈ kids between id := (mem_kids passing.record).2 (mem_kids_of_empty isEmpty)
    have off : ¬ On between empty := fun on => hidden ((passing.empty empty isEmpty).1 on)
    have hangs : Hangs inner between empty target list.anchor := .kid passing.hangs passing.record ⟨rfl, .inl ⟨isEmpty, rfl⟩⟩
    refine (station.mounts keeps passing.underway target calm isKid off hangs).mono fun _ shown moves => ?_
    have mounted : Passing scene inner about id target start begun True shown { list with keys := [], entries := [] } := by
      refine passing.emptied station moves.underway moves.frame (fun kid member => ?_) fun other isOther => ?_
      · rw [List.mem_singleton.1 member]
        exact isEmpty
      · cases isEmpty.symm.trans isOther
        exact moves.moved empty (List.mem_singleton_self _)
    rw [ensures_modifyList mounted.record]
    have written : Passing scene inner about id target start begun True (recording shown id (.list { list with keys := [], entries := [], emptyMounted := true }))
        { list with keys := [], entries := [], emptyMounted := true } := mounted.relist station [] (.refl _) true fun _ => .inl
    refine ⟨[], [], true, ⟨written.underway, written.spares, written.record, nofun, fun other isOther => ?_, written.hangs⟩, nofun, List.nodup_nil, nofun⟩
    exact (written.empty other isOther).trans (iff_of_true trivial rfl)

theorem shows_items (calm : Calm inner start) (items : List Value) (keys : List String) (even : keys.length = items.length) :
    Ensures .any (showItems calls id target items keys) machine fun _ after => ∃ keys entries emptyMounted,
      Listing scene inner about id target start begun after { list with keys, entries, emptyMounted } :=
  (listing.toPassing.shows_items station keeps free calm listing.keyed items keys even).mono fun _ _ ⟨entries, keyed, separate, complete, passing⟩ =>
    ⟨keys, entries, list.emptyMounted, passing, keyed, separate, complete⟩

/-- What is shown is brought in line with the items. -/
theorem reconciles (calm : Calm inner start) (items : List Value) (keys : List String) (even : keys.length = items.length) :
    Ensures .any (reconcile calls id target items keys) machine fun _ after => ∃ keys entries emptyMounted,
      Listing scene inner about id target start begun after { list with keys, entries, emptyMounted } := by
  rw [reconcile, ensures_bind, ensures_list? listing.record, Option.bind_some]
  split
  next empty isEmpty => exact listing.shows_empty station keeps free calm isEmpty
  next => exact listing.shows_items station keeps free calm [] keys even
  next =>
    rw [ensures_bind]
    refine (listing.hides_empty station keeps).mono fun _ between hidden => ?_
    obtain ⟨emptyMounted, listing⟩ := hidden
    exact listing.shows_items station keeps free calm _ keys even

end Listing

section

variable (keeps : KeepsScenes calls) (tidy : Tidy scene machine) (movable : Movable scene machine id) (found : machine.nodes[id]? = some (.list list))

include keeps tidy movable found

theorem mounts_list (calm : Calm scene machine) (off : list.mounted = false) {target : Handle} {anchor : Anchor} (hangs : Hangs scene machine id target anchor) :
    Ensures .any (mountList calls id target anchor) machine fun _ after => Mounted scene id machine after := by
  have formed : Formed (.list list) := tidy.upright.formed id _ found
  have fair : Fair machine.graph (.list list) := tidy.upright.fair id _ found
  have distinct := distinct_kids tidy.arranged found
  have settled := tidy.settled_at movable found
  obtain ⟨noKeys, noEntries, hidden, _⟩ : (Node.list list : Node (Code Memory)).Bare := settled.bare off
  have opening := tidy.opening_off movable found off
  have apart {kid : NodeId} (member : kid ∈ (Node.list list).kids) : kid ≠ id := tidy.apart found member
  rw [mountList, ensures_bind, ensures_modifyList found, ensures_bind]
  have idle := tidy.idle_at movable found off
  have marked : Underway (scene.opening id) scene (· = id) machine (recording machine id (.list { list with anchor })) := by
    refine (movable.station tidy found).rewrite (.refl opening) found rfl formed fair distinct (fun _ member => .inl member) (fun isOpened => absurd (.inl isOpened) movable.rests)
      (.inr rfl) (fun _ => Iff.rfl) fun stead here => ⟨.inl fun _ _ _ _ _ => .inl, fun _ => .inl, fun kid key guarded => ?_, .inl, nofun, nofun, ?_⟩
    · exact absurd (.inr (scene.guards id kid key guarded)) movable.rests
    · rintro _ ⟨⟩
      exact ⟨_, rfl, .inr fun effect target drives => idle effect _ drives rfl⟩
  have following := marked.resume tidy movable
  have foundMarked : (recording machine id (.list { list with anchor })).nodes[id]? = some (.list { list with anchor }) := recording_self found
  have renders : (Task.items id target : Task (Code Memory)).Renders := trivial
  have formedTask : (Task.items id target : Task (Code Memory)).Formed := trivial
  have lists : Lists (recording machine id (.list { list with anchor })) { list with anchor } := by
    refine ⟨fun entry member => ?_, fun entry member => ?_, fun empty isEmpty => iff_of_false (fun on => ?_) fun shown => ?_, ?_, fun key member => ?_⟩
    · exact absurd (noEntries ▸ member) List.not_mem_nil
    · exact absurd (noEntries ▸ member) List.not_mem_nil
    · exact settled.shut off empty (mem_kids_of_empty isEmpty) ((on_recording_of_ne (apart (mem_kids_of_empty isEmpty))).1 on)
    · cases hidden.symm.trans shown
    · exact noKeys ▸ List.nodup_nil
    · exact absurd (noKeys ▸ member) List.not_mem_nil
  have primed : Primed (scene.following id) (recording machine id (.list { list with anchor })) (.items id target) := by
    refine ⟨_, foundMarked, .inr (.inr rfl), lists, fun kid member other below => ?_⟩
    have same : (Node.list { list with anchor } : Node (Code Memory)).kids = (Node.list list).kids := rfl
    rw [below_recording found same] at below
    replace member : kid ∈ kids machine id := (mem_kids found).2 ((mem_kids foundMarked).1 member)
    rintro ((isOpened | rfl) | isStill)
    · exact movable.clear other (.head member below) (.inl isOpened)
    · exact tidy.upright.acyclic other kid member below
    · exact movable.clear other (.head member below) (.inr isStill)
  have hangsHere : Hangs (scene.following id) (recording machine id (.list { list with anchor })) id target anchor :=
    (hangs.congr rfl rfl fun _ _ _ guarded => guarded : Hangs (scene.following id) machine id target anchor).record found (.inl (.inr rfl)) (.inl fun _ _ _ _ _ puts => puts)
  have lodged : Lodged (scene.following id) (recording machine id (.list { list with anchor })) (.items id target) := fun stead here =>
    ⟨⟨_, foundMarked, hangsHere⟩, fun subject handle isSubject _ rests => absurd (.inl (.inr (Option.some.inj isSubject).symm)) rests⟩
  refine (mounts_effect keeps movable.rests calm following idle renders formedTask rfl primed lodged).mono
    fun effect between ⟨underway, frame, isNew, fresh, drives⟩ => ?_
  obtain ⟨later, foundBetween⟩ := frame.exists_list (.inl (.inr rfl)) foundMarked
  rw [ensures_modifyList foundBetween]
  have apartLater (kid : NodeId) (member : kid ∈ (Node.list later).kids) : kid ≠ id := underway.tidy.apart foundBetween member
  have adopted : Underway (scene.following id) scene (· = id) machine
      (recording between id (.list { later with disposables := later.disposables ++ [.effect effect], mounted := true })) := by
    have formedBetween : Formed (.list later) := underway.tidy.upright.formed id _ foundBetween
    have fairBetween : Fair between.graph (.list later) := underway.tidy.upright.fair id _ foundBetween
    refine underway.adopt foundBetween rfl formedBetween fairBetween rfl (.inl (.inr rfl)) (fun isStill => movable.rests (.inr isStill))
      (fun isOpened => movable.rests (.inl isOpened)) (.inl ⟨.inr rfl, rfl⟩) (fun kid member isOpened => ?_) rfl fresh drives (fun _ same => (Option.some.inj same).symm) isNew
      (fun other task _ isSubject governs => ?_) ?_ fun _ => ?_
    · exact underway.tidy.arranged.upward kid isOpened id ((mem_kids foundBetween).2 member)
    · obtain ⟨⟨target, rfl⟩, _, lists⟩ := governs.of_list foundBetween isSubject
      cases isSubject
      exact ⟨_, recording_self foundBetween, .inl rfl, lists.rekept apartLater⟩
    · exact rfl
    · exact .inr ⟨target, anchor, frame.hung id target anchor (.inl (.inr rfl)) hangsHere⟩
  have foundAfter : (recording between id (.list { later with disposables := later.disposables ++ [.effect effect], mounted := true })).nodes[id]? =
      some (.list { later with disposables := later.disposables ++ [.effect effect], mounted := true }) := recording_self foundBetween
  have isKept := (keeps_iff foundAfter).2 (List.mem_append_right later.disposables (List.mem_singleton_self (Disposable.effect effect)))
  have on : On (recording between id (.list { later with disposables := later.disposables ++ [.effect effect], mounted := true })) id := ⟨_, foundAfter, rfl⟩
  refine ⟨adopted.leave foundAfter (.mounted rfl trivial ⟨effect, target, isKept, drives⟩) (fun other task drivesOther isSubject => ?_) nofun, on⟩
  obtain rfl : effect = other := underway.tidy.driven.sole effect other _ task id drives drivesOther rfl isSubject
  exact ⟨isKept, on⟩

omit keeps in
/-- A list that is mounted belongs where its record says. -/
theorem hangs_of_mounted (on : list.mounted = true) {target : Handle} (hangs : ∃ anchor, Hangs scene machine id target anchor) : Hangs scene machine id target list.anchor := by
  cases here : scene.stead with
  | none => exact .adrift here
  | some stead =>
    have settled := tidy.settled_at movable found
    obtain ⟨anchor, hangs⟩ := hangs
    obtain ⟨driver, _, _, drives⟩ : Watched machine id (.list list) := settled.watched on
    obtain ⟨_, again, fits⟩ := (tidy.placed stead here).fits driver _ drives
    cases found.symm.trans again
    obtain ⟨rfl, rfl⟩ := hangs.unique (tidy.placed stead here) tidy.arranged here fits
    exact hangs

theorem unmounts_list {target : Handle} (hangs : ∃ anchor, Hangs scene machine id target anchor) :
    Ensures .any (unmountList calls id list target) machine fun _ after => Unmounted scene id machine after := by
  have formed : Formed (.list list) := tidy.upright.formed id _ found
  have fair : Fair machine.graph (.list list) := tidy.upright.fair id _ found
  have settled := tidy.settled_at movable found
  have station := movable.station tidy found
  have apart {kid : NodeId} (member : kid ∈ (Node.list list).kids) : kid ≠ id := tidy.apart found member
  unfold unmountList
  split
  next isOff =>
    have off : list.mounted = false := by simpa using isOff
    exact ⟨.refl tidy, (not_on_iff found).2 off⟩
  next isOn =>
    have on : list.mounted = true := by simpa using isOn
    obtain ⟨driver, place, _, drives⟩ : Watched machine id (.list list) := settled.watched on
    obtain ⟨_, _, lists⟩ := (tidy.driven.steers driver _ drives).governs.of_list found rfl
    have hangs := hangs_of_mounted tidy movable found on hangs
    have start : Underway (scene.following id) scene (· = id) machine machine := .refl (tidy.following_at movable found)
    rw [ensures_bind, ensures_modifyList found, ensures_bind]
    have same : blank (.list { list with disposables := [] }) = blank (.list list) := rfl
    refine (start.emptied keeps found same formed fair rfl (.inr rfl) movable.rests rfl (fun kid member isOpened => ?_) rfl rfl
      (fun other task _ isSubject governs => ?_) rfl).mono fun _ emptied disposed => ?_
    · exact start.tidy.arranged.upward kid isOpened id ((mem_kids found).2 member)
    · obtain ⟨⟨target, rfl⟩, mounted, lists⟩ := governs.of_list found isSubject
      cases isSubject
      exact ⟨_, recording_self found, mounted, lists.rekept fun kid member => apart member⟩
    obtain ⟨underway, nodes, _, dropped⟩ := disposed
    have foundEmptied : emptied.nodes[id]? = some (.list { list with disposables := [] }) := by
      rw [nodes]
      exact recording_self found
    have halted := underway.halt fun effect task drives isSubject => by
      obtain ⟨old, apart⟩ := dropped effect task drives
      exact apart ((keeps_iff found).1 (tidy.keeps_of_drives movable old isSubject))
    have same {kid : NodeId} (member : kid ∈ (Node.list list).kids) : On emptied kid ↔ On machine kid := by
      rw [On, nodes, recording_of_ne (apart member), On]
    have hangsEmptied : Hangs (scene.opening id) emptied id target list.anchor :=
      (hangs.opening.record found (.inr (.inr rfl)) (.inl fun _ _ _ _ _ puts => puts) : Hangs (scene.opening id) (recording machine id (.list { list with disposables := [] })) id target
        list.anchor).congr nodes rfl fun _ _ _ guarded => guarded
    have passing : Passing scene (scene.opening id) (· = id) id target machine emptied (list.emptyMounted = true) emptied { list with disposables := [] } :=
      ⟨halted, .refl, foundEmptied, fun entry member => (same (mem_kids_of_entry member)).2 (lists.entries entry member),
        fun empty isEmpty => (same (mem_kids_of_empty isEmpty)).trans (lists.empty empty isEmpty), hangsEmptied⟩
    have free (kid : NodeId) (key : Option String) (guarded : (scene.opening id).wards id kid key) : False := movable.rests (.inr (scene.guards id kid key guarded))
    have ends {emptyMounted : Bool} (off : emptyMounted = false) {between : Stage Memory}
        (passing : Passing scene (scene.opening id) (· = id) id target machine emptied False between { list with emptyMounted, disposables := [] }) :
        Ensures .any (unmountItems calls id target >>= fun _ => modifyList id fun node => { node with mounted := false }) between fun _ after =>
          Unmounted scene id machine after := by
      rw [ensures_bind]
      refine (passing.unmounts_items station keeps free lists.keyed).mono fun _ last passing => ?_
      rw [ensures_modifyList passing.record]
      have written : Underway (scene.opening id) scene (· = id) machine
          (recording last id (.list { list with keys := [], entries := [], emptyMounted, disposables := [], mounted := false })) :=
        station.rewrite passing.underway passing.record rfl passing.formed (fun entry member => absurd member List.not_mem_nil) passing.distinct (fun _ member => .inl member)
          (fun isOpened => absurd (.inl isOpened) movable.rests) (.inl ⟨.inr rfl, rfl⟩) (fun _ => Iff.rfl)
          fun stead here => .of_berth (passing.underway.tidy.placed stead here) passing.record rfl fun on => by cases on
      refine ⟨written.close tidy movable (recording_self passing.record) (.unmounted rfl (fun kid member on => ?_) ⟨rfl, rfl, off, rfl⟩)
        (fun _ _ _ isHandle => by cases isHandle), fun on => ?_⟩
      · have isEmpty : list.empty = some kid := Option.mem_toList.1 member
        exact (passing.empty kid isEmpty).1 ((on_recording_of_ne (apart (mem_kids_of_empty isEmpty))).1 on)
      · cases (on_recording_self passing.record).1 on
    rw [ensures_bind, ensures_list? foundEmptied]
    dsimp only
    split
    next shown =>
      rw [ensures_bind, ensures_modifyList foundEmptied, ensures_bind]
      have covering : Passing scene (scene.opening id) (· = id) id target machine emptied (list.emptyMounted = true)
          (recording emptied id (.list { list with emptyMounted := false, disposables := [] })) { list with emptyMounted := false, disposables := [] } :=
        passing.relist station list.keys (.refl _) false fun _ => .inl
      refine (station.unmounts_all keeps target list.empty.toList covering.underway covering.record covering.hangs fun kid member =>
        ⟨list.anchor, rfl, .inl ⟨Option.mem_toList.1 member, rfl⟩⟩).mono fun _ hidden moves => ends rfl ?_
      exact covering.emptied station moves.underway moves.frame (fun kid member => Option.mem_toList.1 member) fun empty isEmpty =>
        moves.moved empty (Option.mem_toList.2 isEmpty)
    next hidden =>
      refine ends (by simpa using hidden) ⟨passing.underway, passing.spares, foundEmptied, passing.entries, fun empty isEmpty => ?_, passing.hangs⟩
      exact (passing.empty empty isEmpty).trans (iff_false_intro hidden)

end

/-! A pass of a list. -/

section

variable (keeps : KeepsScenes calls) (tidy : Tidy scene machine) (calm : Calm scene machine)

include keeps tidy calm

theorem strays_readItems {source : ItemSource (Code Memory)} (hosted : source.accessor.Hosted) :
    Ensures .any (readItems calls source) machine fun _ after => Strays scene machine after := by
  rw [readItems, ensures_bind]
  refine (strays_access keeps tidy calm hosted).mono fun value between strays => ?_
  split
  next => exact strays
  next =>
    split
    next => trivial
    next => exact strays

/-- Each item gets a key. -/
theorem strays_trackItems {tracker : Tracker (Code Memory)} (hosted : ∃ code, tracker = .host code) (items : List Value) :
    Ensures .any (trackItems calls tracker items) machine fun keys after => Strays scene machine after ∧ keys.length = items.length := by
  obtain ⟨code, rfl⟩ := hosted
  induction items generalizing machine with
  | nil => exact ⟨.refl tidy, rfl⟩
  | cons item rest ih =>
    show Ensures .any ((calls.call code [item] >>= fun value => pure value.text) >>= fun key => trackItems calls (.host code) rest >>= fun keys => pure (key :: keys)) machine _
    rw [ensures_bind, ensures_bind]
    refine (keeps.call code [item] tidy calm).mono fun _ between strays => ?_
    rw [ensures_pure, ensures_bind]
    refine (ih strays.tidy (calm.carry strays.depth)).mono fun keys after ⟨tracking, even⟩ => ?_
    exact ⟨strays.trans tracking, congrArg (· + 1) even⟩

end

/-- The body of an effect of a list shows what its items are. -/
theorem performs_items (keeps : KeepsScenes calls) (inBatch : 0 < machine.graph.depth) (live : machine.graph.IsLive effect) {target : Handle}
    (assigned : Assigned scene machine effect (.items id target)) (paused : ¬ scene.still id) (tidy : Tidy (scene.during (Task.items id target : Task (Code Memory))) machine)
    (primed : Primed scene machine (.items id target)) (lodged : Lodged scene machine (.items id target)) :
    Ensures .any (refreshItems calls id target) machine fun _ after => Performed scene effect (.items id target) machine after := by
  obtain ⟨list, found, mounted, lists, alone⟩ := primed
  have hangs : Hangs scene machine id target list.anchor := by
    cases here : scene.stead with
    | none => exact .adrift here
    | some stead =>
      obtain ⟨⟨_, again, hangs⟩, _⟩ := lodged stead here
      cases found.symm.trans again
      exact hangs
  obtain ⟨source, tracker, _⟩ : Formed (.list list) := tidy.upright.formed id _ found
  have isSubject : (Task.items id target : Task (Code Memory)).subject? = some id := rfl
  rw [refreshItems, ensures_bind, ensures_list? found]
  dsimp only
  rw [ensures_bind]
  refine (strays_readItems keeps tidy (calm_of_inBatch inBatch) source).mono fun items read reading => ?_
  rw [ensures_bind]
  refine (strays_trackItems keeps reading.tidy (calm_of_inBatch (reading.depth ▸ inBatch)) tracker items).mono fun keys between tracked => ?_
  obtain ⟨tracking, even⟩ := tracked
  have strays := reading.trans tracking
  have aside := strays.aside inBatch
  have foundBetween : between.nodes[id]? = some (.list list) := aside.nodes ▸ found
  have liveBetween := tidy.live_aside aside assigned.stock live
  have aloneBetween : Alone scene { between with graph := { between.graph with observer := none } } id := alone.carry aside.nodes
  have inBatchBetween : 0 < between.graph.depth := strays.depth ▸ inBatch
  have station := aloneBetween.station strays.tidy.unobserved isSubject paused
  have listsBetween : Lists between list := (lists_congr aside.nodes list).2 lists
  rw [untrack, ensures_observedBy]
  have begun : Listing scene (scene.during (Task.items id target : Task (Code Memory))) (fun other => (Task.items id target : Task (Code Memory)).subject? = some other ∧ ¬ On between other)
      id target { between with graph := { between.graph with observer := none } } { between with graph := { between.graph with observer := none } }
      { between with graph := { between.graph with observer := none } } list :=
    ⟨⟨.refl strays.tidy.unobserved, .refl, foundBetween, listsBetween.entries, listsBetween.empty, hangs.congr aside.nodes rfl fun _ _ _ guarded => guarded⟩, listsBetween.keyed,
      listsBetween.distinct, listsBetween.complete⟩
  refine (begun.reconciles station keeps (fun kid key guarded => paused (scene.guards id kid key guarded)) (calm_of_inBatch inBatchBetween) items keys even).mono fun _ after reconciled => ?_
  obtain ⟨keys, entries, emptyMounted, listing⟩ := reconciled
  have going : Underway (scene.during (Task.items id target : Task (Code Memory))) scene
      (fun other => (Task.items id target : Task (Code Memory)).subject? = some other ∧ ¬ On between other) between
      { after with graph := { after.graph with observer := between.graph.observer } } := listing.underway.unobserved strays.tidy.upright
  have sofar : Underway (scene.during (Task.items id target : Task (Code Memory))) scene
      (fun other => (Task.items id target : Task (Code Memory)).subject? = some other ∧ ¬ On machine other) machine between :=
    (Underway.refl tidy).within (alone.station tidy isSubject paused) strays.toUnderway fun _ never => never.elim
  have whole := sofar.trans going fun other moved _ => .inl (moved.imp_right fun off on => off ((on_congr aside.nodes other).2 on))
  have assignedBetween : Assigned scene { between with graph := { between.graph with observer := none } } effect (.items id target) :=
    assigned.imp_right (.imp fun keeper kept => kept.imp_left (keeps_congr aside.nodes keeper _).2)
  refine ⟨whole.tidy, whole.frame, whole.attends inBatch, (listing.spares effect (assignedBetween.needed isSubject)).2 liveBetween, fun keeper isKept => ?_,
    ⟨_, listing.record, mounted, listing.keyed, listing.entries, listing.empty, listing.separate, listing.complete⟩, fun stead here => ⟨⟨_, listing.record, ?_⟩, ?_⟩⟩
  · obtain rfl := assigned.keeper tidy isSubject isKept
    exact (keeps_iff listing.record).2 ((keeps_iff found).1 isKept)
  · exact listing.hangs.congr rfl rfl fun _ _ _ guarded => guarded
  · rintro subject handle ⟨⟩ owns
    cases (owns_iff listing.record).1 owns

end ReactiveMarkup.Rendering
