import ReactiveMarkup.Proofs.SceneRuns
import ReactiveMarkup.Proofs.SilentScripts
import ReactiveMarkup.Proofs.Teardowns

/-! What a tree leaves behind when it is unmounted: nothing. -/

namespace ReactiveMarkup.Rendering

open ReactiveMarkup.Step ReactiveMarkup.Graph ReactiveMarkup.Machine

variable {Memory : Type} {before between after machine : Stage Memory} {root id : NodeId} {target : Handle} {place : Option Handle} {stead : Stead}

/-- Nothing is mounted. -/
def Bleak (machine : Stage Memory) : Prop := ∀ id, ¬ On machine id

/-- Where nothing is mounted no node keeps anything. -/
theorem Tidy.keeps_nothing {home : Option Stead} (tidy : Tidy (.resting home) machine) (bleak : Bleak machine) (disposable : Disposable) :
    ¬ Keeps machine id disposable := by
  rintro ⟨node, found, member⟩
  rw [((tidy.arranged.settled id node found not_busy_resting).bare ((not_on_iff found).1 (bleak id))).disposables] at member
  cases member

/-- Where nothing is mounted there are no effects but scripts' own. -/
theorem Tidy.drives_nothing {home : Option Stead} (tidy : Tidy (.resting home) machine) (bleak : Bleak machine) (effect : Nat) (task : Task (Code Memory)) :
    ¬ Drives machine.graph effect task := by
  intro drives
  obtain ⟨isPending, _⟩ | ⟨id, isKept, _⟩ := (tidy.driven.steers effect task drives).kept
  · exact isPending
  · exact tidy.keeps_nothing bleak _ isKept

/-- A place for a root, in a document as it is. -/
def Stead.within (machine : Stage Memory) (root : NodeId) (target : Handle) (place : Option Handle) : Stead :=
  { root, target, place := place.elim .front .fixed, base := machine.document.items.size, listeners := machine.document.nextSubscription
    children := machine.document.children target, past := machine.document.history }

/-- Where nothing is mounted, a root may be mounted at a place of its own. -/
theorem AtRest.lodge (rests : AtRest none machine) (bleak : Bleak machine) (forest : machine.document.Forest) (isRoot : root ∈ machine.world.roots)
    (known : machine.document.Known target) (numbered : ∀ subscription ∈ machine.document.subscriptions, subscription.id < machine.document.nextSubscription) :
    AtRest (some (.within machine root target place)) machine := by
  obtain ⟨⟨upright, ⟨unique, distinct, roots, inside, upward, settled⟩, ⟨apart, pending, tame, scripts⟩, _, _⟩, closed, queue, observer, loose, bodied⟩ := id rests
  have nothing := rests.tidy.drives_nothing bleak
  have free {id : NodeId} {handle : Handle} : ¬ Owns machine id handle := fun owns => bleak id owns.on
  have old {handle parent : Handle} (child : machine.document.ChildOf handle parent) : ¬ machine.document.items.size ≤ handle :=
    Nat.not_le.2 (Document.known_of_parent? child)
  refine ⟨⟨upright, ⟨unique, distinct, roots, inside, upward, settled⟩, ⟨apart, pending, tame, scripts⟩,
    ⟨fun effect task drives => absurd drives (nothing effect task), fun first _ task _ _ drives => absurd drives (nothing first task)⟩, fun here isHere => ?_⟩,
    closed, queue, observer, loose, bodied⟩
  obtain rfl := Option.some.inj isHere
  refine ⟨forest, known, Nat.le_refl _, isRoot, fun _ _ _ => False.elim, fun id on => absurd on (bleak id), fun _ _ owns => absurd owns free, fun _ _ owns => absurd owns free,
    fun _ _ _ owns => absurd owns free, fun _ _ new child => absurd new (old child), fun _ _ _ owns => absurd owns free, fun _ _ owns => absurd owns free,
    fun _ _ new child => absurd new (old child), fun handle parent _ child => ?_, ?_, fun subscription member new => absurd new (Nat.not_le.2 (numbered subscription member)),
    fun effect task drives => absurd drives (nothing effect task), ⟨fun _ _ _ _ => ⟨[], rfl, trivial⟩, fun _ _ _ => ⟨[], rfl, trivial⟩⟩⟩
  · exact Document.known_of_mem_children ((forest.linked handle parent).1 child)
  · exact List.filter_eq_self.2 fun handle member => decide_eq_true (Document.known_of_parent? ((forest.linked handle target).2 member))

/-- Where the root of the only tree is not mounted, nothing is. -/
theorem Tidy.bleak (tidy : Tidy (.resting (some stead)) machine) (off : ¬ On machine stead.root) : Bleak machine := by
  intro id on
  obtain ⟨target, anchor, hangs⟩ := (tidy.placed stead rfl).hung id on
  refine absurd on ?_
  clear on
  induction hangs with
  | adrift free => cases free
  | root here => cases here; exact off
  | kid _ found puts above =>
    exact (tidy.arranged.settled _ _ found not_busy_resting).shut ((not_on_iff found).1 above) _ (Puts.mem_kids puts)
  | ward _ guarded => exact guarded.elim

/-- Where nothing is mounted no effect is there for a node, neither one that is live nor one that is over. -/
theorem AtRest.apart {home : Option Stead} (rests : AtRest home machine) (bleak : Bleak machine) : machine.graph.Fit Apart := by
  have fit := rests.tidy.upright.fit
  refine ⟨fit.symmetric, fit.observing, fun effect record task found body renders => ?_⟩
  cases ended : record.disposed with
  | false => exact rests.tidy.drives_nothing bleak effect task ⟨record, found, ended, body, renders⟩
  | true => exact rests.loose effect ⟨record, found, ended, .inr ⟨task, body, renders⟩⟩

/-- A tree has left nothing behind in a machine: it has stood in a target, which it has changed since it was in
another. -/
structure Released (target : Handle) (before after : Stage Memory) : Prop where
  children : after.document.children target = before.document.children target
  listeners : ∀ subscription ∈ after.document.subscriptions, subscription.id < before.document.nextSubscription
  /-- Effects that are not scripts' own are over, and no cell tells them anything. -/
  effects : ∀ effect record, after.graph.content? effect = some (.effect record) → effect ∉ after.world.effects → (∀ code, record.body ≠ some (.host code)) →
    record.disposed = true ∧ ∀ cell, effect ∉ after.graph.subscribers cell
  /-- Whatever scripts do, the document stays as it is. -/
  silent : ∀ later, Followed after later → later.document = after.document
  /-- Whatever was put into a parent that the tree has made was taken out of it before the parent was taken away for good. -/
  removals : ∃ recent, after.document.history = recent ++ before.document.history ∧
    ∀ parent, before.document.items.size ≤ parent → ∀ operation ∈ recent, ∀ child, operation.Inserts child parent →
      ∃ last gone between taken earlier home, recent = last ++ gone :: between ++ taken :: earlier ∧ gone.Removes parent home ∧
        taken.Removes child parent ∧ operation ∈ earlier ∧ (∀ other ∈ last, ∀ home, ¬ other.Inserts parent home) ∧
        (∀ other ∈ last ++ [gone], ¬ other.Moves child parent) ∧ ∀ other ∈ between, ¬ other.Inserts child parent

theorem AtRest.released (rests : AtRest (some stead) after) (off : ¬ On after stead.root) (same : stead = .within before root target place) : Released target before after := by
  have bleak := rests.tidy.bleak off
  have placed := rests.tidy.placed stead rfl
  have free {id : NodeId} {handle : Handle} : ¬ Owns after id handle := fun owns => bleak id owns.on
  subst same
  refine ⟨?_, fun subscription member => ?_, fun effect record found apart tree => ?_, fun _ followed => followed.document_eq (rests.apart bleak), ?_⟩
  · refine .trans (List.filter_eq_self.2 fun handle member => decide_eq_true (Nat.not_le.1 fun new => ?_)).symm placed.children
    obtain ⟨owner, owns⟩ := placed.attached handle target new ((placed.forest.linked handle target).2 member)
    exact free owns
  · refine Nat.not_le.1 fun new => ?_
    obtain isPending | ⟨id, isKept⟩ := placed.listening subscription member new
    · exact isPending
    · exact rests.tidy.keeps_nothing bleak _ isKept
  · have ended : record.disposed = true := by
      refine Bool.eq_true_of_not_eq_false fun awake => ?_
      obtain ⟨task, body⟩ := Option.isSome_iff_exists.1 (rests.bodied effect record found awake)
      refine rests.tidy.drives_nothing bleak effect task ⟨record, found, awake, body, ?_⟩
      cases task with
      | host code => exact tree code body
      | property | classes | text | branches | items => trivial
    refine ⟨ended, fun cell member => rests.loose effect ⟨record, found, ended, .inl ⟨apart, fun none => ?_⟩⟩⟩
    have source := (rests.tidy.upright.fit.symmetric cell effect).1 member
    rw [none] at source
    cases source
  · have retired (parent : Handle) (new : before.document.items.size ≤ parent) : Document.Since before.document.history (Operation.Retired parent) after.document :=
      placed.told.retired parent new fun ⟨_, owns⟩ => free owns
    have told : Document.Since before.document.history (fun recent => ∀ parent, before.document.items.size ≤ parent → Operation.Retired parent recent) after.document := by
      refine Document.Since.all fun parent => ?_
      by_cases new : before.document.items.size ≤ parent
      · exact (retired parent new).mono fun _ retired _ => retired
      · exact (retired _ (Nat.le_refl _)).mono fun _ _ isNew => absurd isNew new
    obtain ⟨recent, history, retired⟩ := told
    exact ⟨recent, history, fun parent new operation member child inserts => (retired parent new).exists_removes operation member inserts⟩

/-- The machines that directors lead to that tend one tree. -/
inductive Director.Tended (root : NodeId) (target : Handle) (place : Option Handle) (start : Stage Memory) : Stage Memory → Prop where
  | start : Tended root target place start start
  | perform {before after : Stage Memory} {director : Director Memory} {depth : Nat} (tended : Tended root target place start before)
      (tends : director.Tends root target place) (done : (director.perform (Calls.upTo (Interpreter.rendering Memory) depth)).run before = (.done (), after)) :
      Tended root target place start after

theorem Director.Tended.atRest {start : Stage Memory} (tended : Director.Tended root target place start machine)
    (rests : AtRest (some (.within start root target place)) start) : AtRest (some (.within start root target place)) machine := by
  induction tended with
  | start => exact rests
  | @perform _ _ director depth _ tends done ih =>
    refine ih.led ((led_director (keepsScenes_upTo depth) director place ih.tidy fun here isHere => ?_).of_done done)
    cases isHere
    exact ⟨tends, rfl⟩

/-- Between directors, what nodes have made and set up is there. -/
theorem AtRest.firm (rests : AtRest (some stead) machine) : Firm machine := by
  have placed := rests.tidy.placed stead rfl
  refine ⟨placed.forest, fun id handle owns => (placed.owned id handle owns).2, fun id effect keeps record found awake => ?_, fun id node found kid isActive => ?_⟩
  · obtain ⟨_, again, isEffect, clean⟩ := rests.tidy.stocked.tame effect (.inr ⟨id, keeps⟩)
    cases found.symm.trans isEffect
    exact (clean awake).1
  · obtain ⟨selection, _, shows⟩ := rests.tidy.upright.fair id _ found
    obtain hidden | shows := shows
    · cases hidden.symm.trans isActive
    · exact mem_kids_of_choice (shows.symm.trans isActive)

/-- A tree leaves nothing behind. Wherever it was mounted, whatever was written since and however its nodes have come and
gone: it can be unmounted, and when it is not mounted any more then nothing of it is left. -/
theorem released_of_tended {start : Stage Memory} (reached : Director.Reached start) (bleak : Bleak start) (forest : start.document.Forest)
    (numbered : ∀ subscription ∈ start.document.subscriptions, subscription.id < start.document.nextSubscription) (isRoot : root ∈ start.world.roots)
    (known : start.document.Known target) (tended : Director.Tended root target place start machine) :
    (¬ On machine root → Released target start machine) ∧
      ∃ bound, ∀ depth, bound ≤ depth → ∃ after, ((Calls.upTo (Interpreter.rendering Memory) depth).unmount root target).run machine = (.done (), after) ∧
        ¬ On after root ∧ Released target start after := by
  have rests := tended.atRest (reached.atRest.lodge bleak forest isRoot known numbered)
  refine ⟨fun off => rests.released off rfl, ?_⟩
  obtain ⟨bound, shallow⟩ := rests.tidy.upright.exists_shallow root
  refine ⟨bound, fun depth enough => ?_⟩
  obtain ⟨⟨⟩, after, ran, _⟩ := (clears_upTo depth root target machine rests.firm (shallow.mono enough fun _ _ member => member)).done
  have placed := rests.tidy.placed _ rfl
  have hangs : Hangs (.resting (some (.within start root target place))) machine root target (place.elim .front .fixed) :=
    @Hangs.root _ _ _ (.within start root target place) rfl
  have unmounted := ((keepsScenes_upTo depth).unmount root target rests.tidy (rests.tidy.movable_root placed.rooted) ⟨_, hangs⟩).of_done ran
  exact ⟨after, ran, unmounted.2, (rests.led unmounted.1.led).released unmounted.2 rfl⟩

/-- A paragraph with one of two texts in it, which nobody has mounted. -/
private def preparing : Director Unit :=
  .run (.newSignal (.bool true) fun _ => .finish .undefined) fun _ =>
    .make (.element "p" [] [] [] (some (.conditional [(.read 0 .answer, some (.text (.fixed (.string "yes"))))] (some (.text (.fixed (.string "no"))))))) fun _ => .finish

private def pristine : Stage Unit :=
  ((preparing.perform (Calls.upTo (Interpreter.rendering Unit) 9)).run (Rendering.start () ((Document.createRoot "div").run {}).2)).2

/-- Mounts the paragraph and has the other text shown. -/
private def tending : Director Unit := .mount 3 0 none (.run (.set 0 (.bool false) (.finish .undefined)) fun _ => .finish)

private def lately : Stage Unit := ((tending.perform (Calls.upTo (Interpreter.rendering Unit) 9)).run pristine).2

theorem released_of_tended_paragraph : ∃ start machine : Stage Unit, Director.Reached start ∧ Bleak start ∧ start.document.Forest ∧
    (∀ subscription ∈ start.document.subscriptions, subscription.id < start.document.nextSubscription) ∧ 3 ∈ start.world.roots ∧ start.document.Known 0 ∧
    Director.Tended 3 0 none start machine ∧ On machine 3 ∧
    ∃ bound, ∀ depth, bound ≤ depth → ∃ after, ((Calls.upTo (Interpreter.rendering Unit) depth).unmount 3 0).run machine = (.done (), after) ∧
      ¬ On after 3 ∧ Released 0 start after := by
  have makes : ((preparing.perform (Calls.upTo (Interpreter.rendering Unit) 9)).run (Rendering.start () ((Document.createRoot "div").run {}).2)).1 = .done () := by cbv
  have reached : Director.Reached pristine := .perform (.start () _) (run_of_ending makes)
  have off : pristine.nodes.toList.all (fun node => !node.isOn) = true := by cbv
  have bleak : Bleak pristine := by
    rintro id ⟨node, found, on⟩
    have isOff := List.all_eq_true.1 off node (Array.mem_toList_iff.2 (Array.mem_of_getElem? found))
    rw [on] at isOff
    cases isOff
  have document : pristine.document = (Document.push {} (.element "div" [])).2 := by cbv
  have forest : pristine.document.Forest := by
    rw [document]
    exact (Document.forest_empty rfl).push _
  have numbered : ∀ subscription ∈ pristine.document.subscriptions, subscription.id < pristine.document.nextSubscription := by
    rw [document]
    exact fun _ member => absurd member List.not_mem_nil
  have roots : pristine.world.roots = [3] := by cbv
  have isRoot : 3 ∈ pristine.world.roots := roots ▸ List.mem_singleton_self 3
  have known : pristine.document.Known 0 := by
    rw [document]
    exact Nat.zero_lt_one
  have tends : tending.Tends 3 0 none := ⟨⟨rfl, rfl, rfl⟩, fun _ => trivial⟩
  have ran : ((tending.perform (Calls.upTo (Interpreter.rendering Unit) 9)).run pristine).1 = .done () := by cbv
  have tended : Director.Tended 3 0 none pristine lately := .perform .start tends (run_of_ending ran)
  have on : On lately 3 :=
    ⟨.element { tag := "p", attributes := [], properties := [], events := [], child := some 2, handle := some 1 }, by cbv, rfl⟩
  exact ⟨pristine, lately, reached, bleak, forest, numbered, isRoot, known, tended, on, (released_of_tended reached bleak forest numbered isRoot known tended).2⟩

end ReactiveMarkup.Rendering
