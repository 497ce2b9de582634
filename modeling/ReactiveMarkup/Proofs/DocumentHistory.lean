import ReactiveMarkup.Proofs.DocumentForest

/-! What the record of a document's operations tells about its tree: which children were taken out of a parent again,
and which handles were taken away after all their children were. -/

namespace ReactiveMarkup

namespace Operation

/-- Whether an operation puts a child into a parent. -/
def Inserts (child parent : Handle) : Operation → Prop
  | .insert handles target _ => child ∈ handles ∧ target = parent
  | _ => False

/-- Whether an operation takes a child out of a parent. -/
def Removes (child parent : Handle) : Operation → Prop
  | .remove handles target => child ∈ handles ∧ target = parent
  | _ => False

/-- Whether an operation puts a child into a parent or takes it out. -/
def Moves (child parent : Handle) (operation : Operation) : Prop := operation.Inserts child parent ∨ operation.Removes child parent

/-- An operation that moves nothing. -/
def Quiet (operation : Operation) : Prop := ∀ child parent, ¬ operation.Moves child parent

/-- After some operations, the latest first, a child that was put into a parent has been taken out of it again. -/
def Withdrawn (child parent : Handle) : List Operation → Prop
  | [] => True
  | latest :: earlier => latest.Removes child parent ∨ (¬ latest.Inserts child parent ∧ Withdrawn child parent earlier)

/-- After some operations, the latest first, a handle that was put somewhere has been taken away for good. All its
children were taken out of it before, and none has been put in or taken out since. -/
def Retired (handle : Handle) : List Operation → Prop
  | [] => True
  | latest :: earlier => (∀ child, ¬ latest.Moves child handle) ∧ (∀ target, ¬ latest.Inserts handle target) ∧
      (((∃ target, latest.Removes handle target) ∧ ∀ child, Withdrawn child handle earlier) ∨ Retired handle earlier)

variable {child parent handle : Handle} {recent noted : List Operation} {operation : Operation}

theorem Withdrawn.cons (withdrawn : Withdrawn child parent recent) (apart : ¬ operation.Inserts child parent) :
    Withdrawn child parent (operation :: recent) := .inr ⟨apart, withdrawn⟩

theorem Withdrawn.quiet (withdrawn : Withdrawn child parent recent) (quiet : ∀ operation ∈ noted, operation.Quiet) :
    Withdrawn child parent (noted ++ recent) := by
  induction noted with
  | nil => exact withdrawn
  | cons latest earlier ih => exact (ih fun operation member => quiet operation (List.mem_cons_of_mem _ member)).cons fun inserts => quiet latest (List.mem_cons_self ..) child parent (.inl inserts)

theorem Retired.cons (retired : Retired handle recent) (children : ∀ child, ¬ operation.Moves child handle)
    (home : ∀ target, ¬ operation.Inserts handle target) : Retired handle (operation :: recent) := ⟨children, home, .inr retired⟩

theorem Retired.quiet (retired : Retired handle recent) (quiet : ∀ operation ∈ noted, operation.Quiet) : Retired handle (noted ++ recent) := by
  induction noted with
  | nil => exact retired
  | cons latest earlier ih =>
    have stays := quiet latest (List.mem_cons_self ..)
    exact (ih fun operation member => quiet operation (List.mem_cons_of_mem _ member)).cons (fun child => stays child handle) fun target inserts => stays handle target (.inl inserts)

/-- What was put into a parent was taken out of it by a later operation, and not put back. -/
theorem Withdrawn.exists_removes (withdrawn : Withdrawn child parent recent) (operation : Operation) (member : operation ∈ recent)
    (inserts : operation.Inserts child parent) :
    ∃ later removal earlier, recent = later ++ removal :: earlier ∧ removal.Removes child parent ∧ operation ∈ earlier ∧
      ∀ other ∈ later, ¬ other.Inserts child parent := by
  induction recent with
  | nil => cases member
  | cons latest earlier ih =>
    obtain removes | ⟨apart, rest⟩ := withdrawn
    · obtain rfl | member := List.mem_cons.1 member
      · cases operation with
        | insert => exact removes.elim
        | _ => exact inserts.elim
      · exact ⟨[], latest, earlier, rfl, removes, member, nofun⟩
    · obtain rfl | member := List.mem_cons.1 member
      · exact absurd inserts apart
      · obtain ⟨later, removal, before, rfl, removes, older, quiet⟩ := ih rest member
        refine ⟨latest :: later, removal, before, rfl, removes, older, fun other among => ?_⟩
        obtain rfl | among := List.mem_cons.1 among
        · exact apart
        · exact quiet other among

/-- A handle that was taken away for good was so after each child that had been put into it was taken out. -/
theorem Retired.exists_removes (retired : Retired handle recent) (operation : Operation) (member : operation ∈ recent)
    (inserts : operation.Inserts child handle) :
    ∃ last gone between taken earlier target, recent = last ++ gone :: between ++ taken :: earlier ∧ gone.Removes handle target ∧
      taken.Removes child handle ∧ operation ∈ earlier ∧ (∀ other ∈ last, ∀ target, ¬ other.Inserts handle target) ∧
      (∀ other ∈ last ++ [gone], ¬ other.Moves child handle) ∧ ∀ other ∈ between, ¬ other.Inserts child handle := by
  induction recent with
  | nil => cases member
  | cons latest earlier ih =>
    obtain ⟨children, home, rest⟩ := retired
    obtain rfl | member := List.mem_cons.1 member
    · exact absurd (.inl inserts) (children child)
    · obtain ⟨⟨target, removes⟩, withdrawn⟩ | rest := rest
      · obtain ⟨later, removal, before, rfl, isTaken, older, quiet⟩ := (withdrawn child).exists_removes operation member inserts
        refine ⟨[], latest, later, removal, before, target, rfl, removes, isTaken, older, nofun, fun other among => ?_, quiet⟩
        exact List.mem_singleton.1 among ▸ children child
      · obtain ⟨last, gone, between, taken, before, target, rfl, isGone, isTaken, older, away, still, quiet⟩ := ih rest member
        refine ⟨latest :: last, gone, between, taken, before, target, rfl, isGone, isTaken, older, fun other among => ?_, fun other among => ?_, quiet⟩
        · obtain rfl | among := List.mem_cons.1 among
          · exact home
          · exact away other among
        · obtain rfl | among := List.mem_cons.1 among
          · exact children child
          · exact still other among

end Operation

namespace Document

open Relation ReactiveMarkup.Step Operation

variable {Listener : Type} {document before middle after : Document Listener} {handles : List Handle} {target : Handle} {anchor : Option Handle}

/-- A change by which no handle moves. -/
structure Undisturbed (before after : Document Listener) : Prop where
  size : before.items.size ≤ after.items.size
  parents : after.parent? = before.parent?
  children : after.children = before.children
  history : ∃ noted, after.history = noted ++ before.history ∧ ∀ operation ∈ noted, operation.Quiet

namespace Undisturbed

theorem refl (document : Document Listener) : Undisturbed document document := ⟨Nat.le_refl _, rfl, rfl, [], rfl, nofun⟩

theorem trans (first : Undisturbed before middle) (second : Undisturbed middle after) : Undisturbed before after := by
  obtain ⟨noted, history, quiet⟩ := first.history
  obtain ⟨notedLater, historyLater, quietLater⟩ := second.history
  refine ⟨Nat.le_trans first.size second.size, second.parents.trans first.parents, second.children.trans first.children, notedLater ++ noted, ?_, fun operation member => ?_⟩
  · rw [historyLater, history, List.append_assoc]
  · exact (List.mem_append.1 member).elim (quietLater operation) (quiet operation)

theorem note (undisturbed : Undisturbed before after) {operation : Operation} (quiet : operation.Quiet) : Undisturbed before (after.note operation) :=
  undisturbed.trans ⟨Nat.le_refl _, rfl, rfl, [operation], rfl, fun _ member => List.mem_singleton.1 member ▸ quiet⟩

theorem push (document : Document Listener) (kind : Kind) : Undisturbed document (document.push kind).2 := by
  refine ⟨?_, funext (parent?_push document kind), funext (children_push document kind), [], rfl, nofun⟩
  simp [Document.push]

/-- A handle that is what it was but for its kind. -/
theorem modify (document : Document Listener) (handle : Handle) (f : Kind → Kind) :
    Undisturbed document (document.modify handle fun item => { item with kind := f item.kind }) := by
  refine ⟨by simp [Document.modify], funext fun other => ?_, funext fun other => ?_, [], rfl, nofun⟩
  · rw [parent?, parent?, getElem?_modify]
    split
    · next same =>
      subst same
      cases document.items[other]? <;> rfl
    · rfl
  · rw [Document.children, Document.children, getElem?_modify]
    split
    · next same =>
      subst same
      cases document.items[other]? <;> rfl
    · rfl

end Undisturbed

/-! What is done to a document without moving anything. -/

section

variable {breaks : Breaks} {post : Document Listener → Prop}

theorem undisturbed_create (tag : String) (document : Document Listener) :
    ∃ after, (create tag).run document = (.done document.items.size, after) ∧ Undisturbed document after ∧ after.items.size = document.items.size + 1 ∧
      after.subscriptions = document.subscriptions ∧ after.nextSubscription = document.nextSubscription :=
  ⟨_, rfl, (Undisturbed.push document (.element tag [])).note fun _ _ moves => moves.elim id id, by simp [note], rfl, rfl⟩

theorem undisturbed_createText (text : String) (document : Document Listener) :
    ∃ after, (createText text).run document = (.done document.items.size, after) ∧ Undisturbed document after ∧ after.items.size = document.items.size + 1 ∧
      after.subscriptions = document.subscriptions ∧ after.nextSubscription = document.nextSubscription :=
  ⟨_, rfl, (Undisturbed.push document (.text text)).note fun _ _ moves => moves.elim id id, by simp [note], rfl, rfl⟩

/-- Another kind for a handle, with a note of it. -/
private theorem ensures_change {handle : Handle} {f : Kind → Kind} {operation : Operation} (quiet : operation.Quiet) (document : Document Listener) :
    Ensures .any (do
      update handle fun item => { item with kind := f item.kind }
      record operation) document fun _ after =>
        Undisturbed document after ∧ after.subscriptions = document.subscriptions ∧ after.nextSubscription = document.nextSubscription := by
  by_cases known : document.Known handle
  · obtain ⟨item, found⟩ := known_iff.1 known
    rw [ensures_bind, ensures_update found, ensures_record]
    exact ⟨(Undisturbed.modify document handle f).note quiet, rfl, rfl⟩
  · simp only [update, Document.item, ensures_bind, ensures_get]
    rw [Array.getElem?_eq_none (Nat.le_of_not_lt known)]
    exact trivial

theorem ensures_setProperty (name : String) (value : Value) (handle : Handle) (document : Document Listener) :
    Ensures .any (setProperty name value handle) document fun _ after =>
      Undisturbed document after ∧ after.subscriptions = document.subscriptions ∧ after.nextSubscription = document.nextSubscription :=
  ensures_change (fun _ _ moves => moves.elim id id) document

theorem ensures_setText (text : String) (handle : Handle) (document : Document Listener) :
    Ensures .any (setText text handle) document fun _ after =>
      Undisturbed document after ∧ after.subscriptions = document.subscriptions ∧ after.nextSubscription = document.nextSubscription :=
  ensures_change (fun _ _ moves => moves.elim id id) document

theorem undisturbed_subscribe (event : String) (listener : Listener) (handle : Handle) (document : Document Listener) :
    ∃ after, (subscribe event listener handle).run document = (.done document.nextSubscription, after) ∧ Undisturbed document after ∧
      after.subscriptions = document.subscriptions ++ [⟨document.nextSubscription, handle, event, listener⟩] ∧
      after.nextSubscription = document.nextSubscription + 1 :=
  ⟨_, rfl, ⟨Nat.le_refl _, rfl, rfl, [.subscribe handle event], rfl, fun _ member => List.mem_singleton.1 member ▸ fun _ _ moves => moves.elim id id⟩, rfl, rfl⟩

theorem undisturbed_unsubscribe (id : Nat) (document : Document Listener) :
    ∃ after, (unsubscribe id).run document = (.done (), after) ∧ Undisturbed document after ∧
      after.subscriptions = document.subscriptions.filter (·.id != id) ∧ after.nextSubscription = document.nextSubscription := by
  simp only [unsubscribe, Step.run]
  cases found : document.subscriptions.find? (·.id == id) with
  | none =>
    refine ⟨document, by simp [MonadState.modifyGet, MonadStateOf.modifyGet, found], .refl document, ?_, rfl⟩
    refine (List.filter_eq_self.2 fun subscription member => ?_).symm
    simpa using List.find?_eq_none.1 found subscription member
  | some subscription =>
    refine ⟨{ document with
        subscriptions := document.subscriptions.filter (·.id != id)
        history := .unsubscribe subscription.handle subscription.event :: document.history },
      by simp only [MonadState.modifyGet, MonadStateOf.modifyGet, found],
      ⟨Nat.le_refl _, rfl, rfl, [.unsubscribe subscription.handle subscription.event], rfl, ?_⟩, rfl, rfl⟩
    exact fun _ member => List.mem_singleton.1 member ▸ fun _ _ moves => moves.elim False.elim False.elim

end

/-- Looking at a handle changes nothing. -/
theorem silent_item (handle : Handle) (document : Document Listener) : Ensures .any (Document.item handle) document fun _ after => after = document := by
  simp only [Document.item, ensures_bind, ensures_get]
  split
  · exact rfl
  · exact trivial

theorem silent_isFirst (handles : List Handle) (target : Handle) (document : Document Listener) :
    Ensures .any (isFirst handles target) document fun _ after => after = document := by
  cases handles with
  | nil => exact rfl
  | cons first rest =>
    rw [isFirst, ensures_bind]
    exact silent_item target document

theorem silent_isAfter (handles : List Handle) (spot : Handle) (document : Document Listener) :
    Ensures .any (isAfter handles spot) document fun _ after => after = document := by
  cases handles with
  | nil => exact rfl
  | cons first rest =>
    rw [isAfter, ensures_bind]
    refine (silent_item first document).mono fun item between same => ?_
    subst same
    split
    · exact rfl
    · rw [ensures_bind]
      refine (silent_item _ between).mono fun parent later same => ?_
      subst same
      dsimp only
      split <;> exact rfl

/-! What moves handles leaves everything else alone. -/

/-- A change that touches neither listeners nor the record of operations. -/
structure Rearranged (before after : Document Listener) : Prop where
  subscriptions : after.subscriptions = before.subscriptions
  nextSubscription : after.nextSubscription = before.nextSubscription
  history : after.history = before.history

namespace Rearranged

theorem refl (document : Document Listener) : Rearranged document document := ⟨rfl, rfl, rfl⟩

theorem trans (first : Rearranged before middle) (second : Rearranged middle after) : Rearranged before after :=
  ⟨second.subscriptions.trans first.subscriptions, second.nextSubscription.trans first.nextSubscription, second.history.trans first.history⟩

end Rearranged

theorem rearranged_item (handle : Handle) (document : Document Listener) :
    Ensures .any (Document.item handle) document fun _ after => Rearranged document after := by
  simp only [Document.item, ensures_bind, ensures_get]
  split
  · exact .refl document
  · exact trivial

theorem rearranged_update (handle : Handle) (f : Item → Item) (document : Document Listener) :
    Ensures .any (update handle f) document fun _ after => Rearranged document after := by
  simp only [update, ensures_bind, ensures_modifyGet]
  exact (rearranged_item handle document).mono fun _ _ same => ⟨same.subscriptions, same.nextSubscription, same.history⟩

theorem rearranged_detach (handle : Handle) (document : Document Listener) :
    Ensures .any (detach handle) document fun _ after => Rearranged document after := by
  rw [detach, ensures_bind]
  refine (rearranged_item handle document).mono fun item between first => ?_
  split
  · exact first
  · rw [ensures_bind]
    refine (rearranged_update handle _ between).mono fun _ later second => ?_
    exact (rearranged_update _ _ later).mono fun _ _ third => first.trans (second.trans third)

/-- Steps for several handles, each of which rearranges only. -/
theorem rearranged_forM {step : Handle → Edit Listener PUnit}
    (one : ∀ handle document, Ensures .any (step handle) document fun _ after => Rearranged document after) (handles : List Handle) (document : Document Listener) :
    Ensures .any (handles.forM step) document fun _ after => Rearranged document after := by
  induction handles generalizing document with
  | nil => exact .refl document
  | cons handle rest ih =>
    rw [ensures_forM_cons]
    exact (one handle document).mono fun _ between first => (ih between).mono fun _ _ second => first.trans second

theorem rearranged_detachFrom (target handle : Handle) (document : Document Listener) :
    Ensures .any (detachFrom target handle) document fun _ after => Rearranged document after := by
  rw [detachFrom, ensures_bind]
  refine (rearranged_item handle document).mono fun item between first => ?_
  split
  · exact (rearranged_detach handle between).mono fun _ _ second => first.trans second
  · exact first

theorem rearranged_indexAfter (target : Handle) (anchor : Option Handle) (document : Document Listener) :
    Ensures .any (indexAfter target anchor) document fun _ after => Rearranged document after := by
  cases anchor with
  | none => exact .refl document
  | some anchor =>
    rw [indexAfter, ensures_bind]
    refine (rearranged_item target document).mono fun item between first => ?_
    split
    · exact first
    · exact trivial

theorem rearranged_insertAt (target : Handle) (index : Nat) (handles : List Handle) (document : Document Listener) :
    Ensures .any (insertAt target index handles) document fun _ after => Rearranged document after := by
  induction handles generalizing index document with
  | nil => exact .refl document
  | cons handle rest ih =>
    rw [insertAt, ensures_bind]
    refine (rearranged_update handle _ document).mono fun _ between first => ?_
    rw [ensures_bind]
    refine (rearranged_item target between).mono fun item later second => ?_
    have place : Ensures .any (do
        update target fun item => { item with children := item.children.insertIdx index handle }
        insertAt target (index + 1) rest) later fun _ after => Rearranged document after := by
      rw [ensures_bind]
      refine (rearranged_update target _ later).mono fun _ last third => ?_
      exact (ih (index + 1) last).mono fun _ _ rest => ((first.trans second).trans third).trans rest
    dsimp only
    split
    · exact trivial
    · exact place

/-- A mounting that is done puts the handles in and is noted. -/
theorem Forest.of_mount (forest : before.Forest) (movable : before.Movable handles target)
    (done : (mount handles target anchor).run before = (.done (), after)) :
    PutIn before after handles target anchor ∧ after.history = .insert handles target anchor :: before.history ∧
      after.subscriptions = before.subscriptions ∧ after.nextSubscription = before.nextSubscription := by
  have rest : Ensures .any (mount handles target anchor) before fun _ after => after.history = .insert handles target anchor :: before.history ∧
      after.subscriptions = before.subscriptions ∧ after.nextSubscription = before.nextSubscription := by
    rw [mount, ensures_bind]
    refine (rearranged_forM rearranged_detach handles before).mono fun _ between first => ?_
    rw [ensures_bind]
    refine (rearranged_indexAfter target anchor between).mono fun index later second => ?_
    rw [ensures_bind]
    refine (rearranged_insertAt target index handles later).mono fun _ last third => ?_
    rw [ensures_record]
    obtain ⟨subscriptions, next, history⟩ := (first.trans second).trans third
    exact ⟨congrArg _ history, subscriptions, next⟩
  refine ⟨?_, rest.of_done done⟩
  obtain ⟨later, ran, putIn⟩ | ⟨_, _, _, _, ran, _⟩ := forest.mount_cases anchor movable
  · cases done.symm.trans ran
    exact putIn
  · cases done.symm.trans ran

/-- An unmounting takes out those handles that stand in the target and is noted. -/
theorem Forest.unmount_cases (target : Handle) (forest : before.Forest) (known : ∀ handle ∈ handles, before.Known handle) (distinct : handles.Nodup) :
    ∃ after, (unmount handles target).run before = (.done (), after) ∧
      TakenOut before after (handles.filter fun handle => before.parent? handle == some target) ∧ after.history = .remove handles target :: before.history ∧
      after.subscriptions = before.subscriptions ∧ after.nextSubscription = before.nextSubscription := by
  have rest : Ensures .any (unmount handles target) before fun _ after => after.history = .remove handles target :: before.history ∧
      after.subscriptions = before.subscriptions ∧ after.nextSubscription = before.nextSubscription := by
    rw [unmount, ensures_bind]
    refine (rearranged_forM (rearranged_detachFrom target) handles before).mono fun _ between first => ?_
    rw [ensures_record]
    exact ⟨congrArg _ first.history, first.subscriptions, first.nextSubscription⟩
  obtain ⟨⟨⟩, after, done, takenOut⟩ := (forest.ensures_unmount target known distinct).done
  exact ⟨after, done, takenOut, rest.of_done done⟩

/-! What holds of the operations since some time. -/

/-- Whether something holds of the operations since a time in the past, the latest first. -/
def Since (past : List Operation) (holds : List Operation → Prop) (document : Document Listener) : Prop :=
  ∃ recent, document.history = recent ++ past ∧ holds recent

variable {past : List Operation}

theorem Since.mono {holds weaker : List Operation → Prop} (since : Since past holds document) (implies : ∀ recent, holds recent → weaker recent) :
    Since past weaker document := since.imp fun recent ⟨history, told⟩ => ⟨history, implies recent told⟩

/-- What is noted where no handle moves makes no difference to what was taken away. -/
theorem Since.undisturbed {handle : Handle} (since : Since past (Retired handle) before) (undisturbed : Undisturbed before after) : Since past (Retired handle) after := by
  obtain ⟨recent, earlier, retired⟩ := since
  obtain ⟨noted, history, quiet⟩ := undisturbed.history
  exact ⟨noted ++ recent, by rw [history, earlier, List.append_assoc], retired.quiet quiet⟩

/-- There is only one such list of operations. -/
theorem Since.all {holds : Handle → List Operation → Prop} (since : ∀ handle, Since past (holds handle) document) :
    Since past (fun recent => ∀ handle, holds handle recent) document := by
  obtain ⟨recent, history, _⟩ := since 0
  refine ⟨recent, history, fun handle => ?_⟩
  obtain ⟨same, again, told⟩ := since handle
  cases List.append_cancel_right (history.symm.trans again)
  exact told

/-- What the operations since some time tell of the handles from a number on, some of which are in use: a child that
does not stand in a parent was taken out of it, and a handle that is not in use was taken away for good. -/
structure Told (base : Handle) (past : List Operation) (used : Handle → Prop) (document : Document Listener) : Prop where
  withdrawn : ∀ child parent, base ≤ parent → child ∉ document.children parent → Since past (Withdrawn child parent) document
  retired : ∀ handle, base ≤ handle → ¬ used handle → Since past (Retired handle) document

namespace Told

variable {base : Handle} {used : Handle → Prop}

theorem undisturbed (told : Told base past used before) (undisturbed : Undisturbed before after) : Told base past used after := by
  obtain ⟨noted, history, quiet⟩ := undisturbed.history
  have later {holds : List Operation → Prop} (since : Since past holds before) (still : ∀ recent, holds recent → holds (noted ++ recent)) : Since past holds after := by
    obtain ⟨recent, earlier, told⟩ := since
    exact ⟨noted ++ recent, by rw [history, earlier, List.append_assoc], still recent told⟩
  refine ⟨fun child parent inside away => ?_, fun handle inside unused => ?_⟩
  · rw [undisturbed.children] at away
    exact later (told.withdrawn child parent inside away) fun recent withdrawn => withdrawn.quiet quiet
  · exact later (told.retired handle inside unused) fun recent retired => retired.quiet quiet

/-- Handles in use are put into a target that is in use or not among those told of. -/
theorem putIn (told : Told base past used before) (putIn : PutIn before after handles target anchor)
    (history : after.history = .insert handles target anchor :: before.history) (known : ∀ handle ∈ handles, used handle)
    (home : base ≤ target → used target) (free : ∀ handle ∈ handles, ∀ parent, handle ∈ before.children parent → parent = target) :
    Told base past used after := by
  have later {holds : List Operation → Prop} (since : Since past holds before) (still : ∀ recent, holds recent → holds (.insert handles target anchor :: recent)) :
      Since past holds after := by
    obtain ⟨recent, earlier, told⟩ := since
    exact ⟨_ :: recent, by rw [history, earlier]; rfl, still recent told⟩
  refine ⟨fun child parent inside away => ?_, fun handle inside unused => ?_⟩
  · have outside : child ∉ before.children parent ∧ ¬ (child ∈ handles ∧ target = parent) := by
      refine ⟨fun member => away (putIn.mem_children.2 ?_), fun ⟨among, here⟩ => away (putIn.mem_children.2 ?_)⟩
      · split
        next among => exact free child among parent member
        next => exact member
      · rw [if_pos among, here]
    exact later (told.withdrawn child parent inside outside.1) fun recent withdrawn => withdrawn.cons outside.2
  · refine later (told.retired handle inside unused) fun recent retired => retired.cons (fun child moves => ?_) fun parent inserts => unused (known handle inserts.1)
    obtain inserts | removes := moves
    · exact unused (inserts.2 ▸ home (inserts.2.symm ▸ inside))
    · exact removes

theorem takenOut (told : Told base past used before)
    (takenOut : TakenOut before after (handles.filter fun handle => before.parent? handle == some target)) (forest : before.Forest)
    (history : after.history = .remove handles target :: before.history) (home : base ≤ target → used target) : Told base past used after := by
  have later {holds : List Operation → Prop} (since : Since past holds before) (still : ∀ recent, holds recent → holds (.remove handles target :: recent)) :
      Since past holds after := by
    obtain ⟨recent, earlier, told⟩ := since
    exact ⟨_ :: recent, by rw [history, earlier]; rfl, still recent told⟩
  refine ⟨fun child parent inside away => ?_, fun handle inside unused => ?_⟩
  · by_cases stood : child ∈ before.children parent
    · obtain ⟨among, here⟩ : child ∈ handles ∧ target = parent := by
        rw [takenOut.children, List.mem_filter] at away
        have listed : child ∈ handles.filter fun handle => before.parent? handle == some target := by
          refine Decidable.byContradiction fun apart => away ⟨stood, ?_⟩
          rw [decide_eq_true_eq]
          exact apart
        obtain ⟨among, stands⟩ := List.mem_filter.1 listed
        have linked : before.ChildOf child parent := (forest.linked child parent).2 stood
        exact ⟨among, Option.some.inj ((by simpa using stands : before.parent? child = some target).symm.trans linked)⟩
      obtain ⟨recent, earlier, _⟩ := told.withdrawn parent parent inside fun loop => forest.acyclic parent (.single ((forest.linked parent parent).2 loop))
      exact ⟨.remove handles target :: recent, by rw [history, earlier]; rfl, .inl ⟨among, here⟩⟩
    · exact later (told.withdrawn child parent inside stood) fun recent withdrawn => withdrawn.cons fun inserts => inserts
  · refine later (told.retired handle inside unused) fun recent retired => retired.cons (fun child moves => ?_) fun _ inserts => inserts
    obtain inserts | removes := moves
    · exact inserts
    · exact unused (removes.2 ▸ home (removes.2.symm ▸ inside))

/-- A handle that was taken out of a target when nothing stood in it has been taken away for good. -/
theorem retired_of_takenOut (told : Told base past used before) {handle : Handle} (inside : base ≤ handle) (bare : before.children handle = [])
    (among : handle ∈ handles) (apart : target ≠ handle) (history : after.history = .remove handles target :: before.history) : Since past (Retired handle) after := by
  have withdrawn : Since past (fun recent => ∀ child, Withdrawn child handle recent) before :=
    Since.all fun child => told.withdrawn child handle inside (by rw [bare]; exact List.not_mem_nil)
  obtain ⟨recent, earlier, withdrawn⟩ := withdrawn
  exact ⟨.remove handles target :: recent, by rw [history, earlier]; rfl, fun _ moves => moves.elim id fun removes => apart removes.2, fun _ inserts => inserts,
    .inl ⟨⟨target, among, rfl⟩, withdrawn⟩⟩

/-- Other handles are in use. -/
theorem reuse {other : Handle → Prop} (told : Told base past used document)
    (retired : ∀ handle, base ≤ handle → used handle → ¬ other handle → Since past (Retired handle) document) : Told base past other document :=
  ⟨told.withdrawn, fun handle inside unused => by
    by_cases wasUsed : used handle
    · exact retired handle inside wasUsed unused
    · exact told.retired handle inside wasUsed⟩

end Told

end Document

end ReactiveMarkup
