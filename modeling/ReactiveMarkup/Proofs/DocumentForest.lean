import Mathlib.Logic.Relation
import ReactiveMarkup.Proofs.DocumentLaws

/-! The items of a document form a forest, whatever is created, put in and taken out, as long as
nothing is put below itself. A call that breaks off at its anchor leaves a forest too: it has
taken its handles out of where they stood, and put none in. -/

namespace ReactiveMarkup.Document

open ReactiveMarkup.Step Relation

variable {Listener : Type} {document before between after : Document Listener}

def Known (document : Document Listener) (handle : Handle) : Prop := handle < document.items.size

instance (handle : Handle) : Decidable (document.Known handle) := inferInstanceAs (Decidable (_ < _))

def ChildOf (document : Document Listener) (child parent : Handle) : Prop := document.parent? child = some parent

/-- Parents and children match, siblings are distinct, and no item is above itself. -/
structure Forest (document : Document Listener) : Prop where
  linked : ∀ child parent, document.ChildOf child parent ↔ child ∈ document.children parent
  distinct : ∀ parent, (document.children parent).Nodup
  acyclic : ∀ handle, ¬ TransGen document.ChildOf handle handle

/-- Handles that can be put into a target: all are known and distinct, and none is the target or
stands above it. -/
structure Movable (document : Document Listener) (handles : List Handle) (target : Handle) : Prop where
  home : document.Known target
  known : ∀ handle ∈ handles, document.Known handle
  distinct : handles.Nodup
  below : ∀ handle ∈ handles, ¬ ReflTransGen document.ChildOf target handle

theorem Movable.apart {handles : List Handle} {target : Handle} (movable : document.Movable handles target) :
    target ∉ handles :=
  fun inside => movable.below target inside .refl

/-! What stands where, read from the items. -/

theorem known_iff {handle : Handle} : document.Known handle ↔ ∃ item, document.items[handle]? = some item := by
  rw [Known]
  constructor
  · exact fun within => ⟨_, Array.getElem?_eq_getElem within⟩
  · rintro ⟨item, found⟩
    exact (Array.getElem?_eq_some_iff.1 found).1

theorem parent?_of_getElem? {handle : Handle} {item : Item} (found : document.items[handle]? = some item) :
    document.parent? handle = item.parent := by
  simp [parent?, found]

theorem known_of_parent? {handle parent : Handle} (stands : document.parent? handle = some parent) :
    document.Known handle := by
  rw [parent?, Option.bind_eq_some_iff] at stands
  obtain ⟨item, found, _⟩ := stands
  exact known_iff.2 ⟨item, found⟩

theorem known_of_mem_children {child parent : Handle} (member : child ∈ document.children parent) :
    document.Known parent := by
  rw [children] at member
  cases found : document.items[parent]? with
  | some item => exact known_iff.2 ⟨item, found⟩
  | none => simp [found] at member

theorem run_item {handle : Handle} {item : Item} (found : document.items[handle]? = some item) :
    (Document.item handle).run document = (.done item, document) := by
  have isGet : (get : Edit Listener (Document Listener)).run document = (.done document, document) := rfl
  rw [Document.item, run_bind_of_done isGet, found]
  rfl

/-! A new item stands nowhere and has no children. -/

theorem parent?_push (document : Document Listener) (kind : Kind) (handle : Handle) :
    (document.push kind).2.parent? handle = document.parent? handle := by
  rw [parent?, parent?, push, Array.getElem?_push]
  split
  next fresh => simp [fresh]
  next => rfl

theorem children_push (document : Document Listener) (kind : Kind) (handle : Handle) :
    (document.push kind).2.children handle = document.children handle := by
  rw [children, children, push, Array.getElem?_push]
  split
  next fresh => simp [fresh]
  next => rfl

/-- A document with the same parents and children is a forest too. -/
theorem Forest.congr (forest : before.Forest) (parents : after.parent? = before.parent?)
    (lists : after.children = before.children) : after.Forest := by
  have sameChildOf : after.ChildOf = before.ChildOf := by
    funext child parent
    rw [ChildOf, ChildOf, parents]
  refine ⟨fun child parent => ?_, fun parent => ?_, fun handle => ?_⟩
  · rw [sameChildOf, lists]
    exact forest.linked child parent
  · rw [lists]
    exact forest.distinct parent
  · rw [sameChildOf]
    exact forest.acyclic handle

theorem Forest.push (forest : document.Forest) (kind : Kind) : (document.push kind).2.Forest :=
  forest.congr (funext (parent?_push document kind)) (funext (children_push document kind))

/-! Taking handles out of wherever they stand. -/

/-- Some handles have been taken out. -/
structure TakenOut (before after : Document Listener) (handles : List Handle) : Prop where
  size : after.items.size = before.items.size
  parents : ∀ handle, after.parent? handle = if handle ∈ handles then none else before.parent? handle
  children : ∀ parent, after.children parent = (before.children parent).filter (· ∉ handles)

theorem TakenOut.known_iff {handles : List Handle} (takenOut : TakenOut before after handles) {handle : Handle} :
    after.Known handle ↔ before.Known handle := by
  rw [Known, Known, takenOut.size]

theorem TakenOut.nothing (document : Document Listener) : TakenOut document document [] := by
  refine ⟨rfl, fun handle => ?_, fun parent => ?_⟩
  · simp
  · exact (List.filter_eq_self.2 fun _ _ => by simp).symm

theorem TakenOut.trans {handles others : List Handle} (first : TakenOut before between handles)
    (second : TakenOut between after others) : TakenOut before after (handles ++ others) := by
  refine ⟨second.size.trans first.size, fun handle => ?_, fun parent => ?_⟩
  · rw [second.parents, first.parents]
    by_cases inOthers : handle ∈ others <;> by_cases inHandles : handle ∈ handles <;> simp [inOthers, inHandles]
  · rw [second.children, first.children, List.filter_filter]
    refine List.filter_congr fun child _ => ?_
    by_cases inOthers : child ∈ others <;> by_cases inHandles : child ∈ handles <;> simp [inOthers, inHandles]

/-- What stands somewhere after handles were taken out stood there before. -/
theorem TakenOut.childOf {handles : List Handle} (takenOut : TakenOut before after handles) {child parent : Handle} :
    after.ChildOf child parent ↔ child ∉ handles ∧ before.ChildOf child parent := by
  rw [ChildOf, ChildOf, takenOut.parents]
  by_cases inside : child ∈ handles <;> simp [inside]

theorem Forest.takenOut {handles : List Handle} (forest : before.Forest) (takenOut : TakenOut before after handles) :
    after.Forest := by
  refine ⟨fun child parent => ?_, fun parent => ?_, fun handle cycle => ?_⟩
  · rw [takenOut.childOf, takenOut.children, List.mem_filter, forest.linked]
    simp [and_comm]
  · rw [takenOut.children]
    exact (forest.distinct parent).filter _
  · exact forest.acyclic handle (TransGen.mono (fun _ _ stands => (takenOut.childOf.1 stands).2) _ _ cycle)

/-- An item of a forest is in no list of children but its parent's. -/
theorem Forest.filter_children {child parent : Handle} (forest : document.Forest) (elsewhere : ¬ document.ChildOf child parent) :
    (document.children parent).filter (· ∉ [child]) = document.children parent := by
  rw [List.filter_eq_self]
  intro other member
  have different : other ≠ child := fun same => elsewhere (same ▸ (forest.linked other parent).2 member)
  simpa using different

/-- Taking out one item that is known comes to its end. -/
theorem Forest.ensures_detach {handle : Handle} (forest : document.Forest) (known : document.Known handle) :
    Ensures ⟨False, False⟩ (detach handle) document fun _ after => TakenOut document after [handle] := by
  obtain ⟨item, found⟩ := known_iff.1 known
  rw [detach, ensures_bind, ensures_item found]
  have place := parent?_of_getElem? found
  cases stands : item.parent with
  | none =>
    rw [stands] at place
    rw [ensures_pure]
    refine ⟨rfl, fun other => ?_, fun parent => ?_⟩
    · by_cases here : other = handle
      · simp [here, place]
      · simp [here]
    · refine (forest.filter_children fun inside => ?_).symm
      rw [ChildOf, place] at inside
      cases inside
  | some parent =>
    rw [stands] at place
    have member : handle ∈ document.children parent := (forest.linked handle parent).1 place
    obtain ⟨owner, foundOwner⟩ := known_iff.1 (known_of_mem_children member)
    have apart : parent ≠ handle := fun here => forest.acyclic handle (.single (here ▸ place))
    have foundStill : (document.modify handle fun item => { item with parent := none }).items[parent]? = some owner := by
      rw [getElem?_modify, if_neg apart, foundOwner]
    rw [ensures_bind, ensures_update found, ensures_update foundStill]
    refine ⟨by simp [modify], fun other => ?_, fun other => ?_⟩
    · rw [parent?, getElem?_modify, getElem?_modify]
      by_cases here : other = handle
      · subst here
        simp [Ne.symm apart, found]
      · by_cases there : other = parent
        · subst there
          simp [apart, foundOwner, parent?]
        · simp [here, there, parent?]
    · rw [children, getElem?_modify, getElem?_modify]
      by_cases there : other = parent
      · subst there
        simp only [if_true, if_neg apart, foundOwner, children_of_getElem? foundOwner, Option.map_some, Option.elim_some]
        refine List.filter_congr fun child _ => ?_
        by_cases same : child = handle <;> simp [same]
      · rw [if_neg there, forest.filter_children fun inside => there ?_]
        · by_cases here : other = handle
          · subst here
            simp [found, children]
          · simp [here, children]
        · rw [ChildOf, place] at inside
          exact (Option.some.inj inside).symm

/-- Taking out known items one after the other, those whose parents pass a test. -/
theorem Forest.ensures_each (test : Option Handle → Bool) (step : Handle → Edit Listener PUnit) {handles : List Handle}
    (one : ∀ (document : Document Listener) (handle : Handle), document.Forest → document.Known handle →
      Ensures ⟨False, False⟩ (step handle) document fun _ after =>
        TakenOut document after ([handle].filter fun handle => test (document.parent? handle)))
    (forest : document.Forest) (known : ∀ handle ∈ handles, document.Known handle) (distinct : handles.Nodup) :
    Ensures ⟨False, False⟩ (handles.forM step) document fun _ after =>
      TakenOut document after (handles.filter fun handle => test (document.parent? handle)) := by
  induction handles generalizing document with
  | nil =>
    rw [ensures_forM_nil]
    exact .nothing document
  | cons first rest ih =>
    obtain ⟨fresh, distinctRest⟩ := List.nodup_cons.1 distinct
    rw [ensures_forM_cons]
    refine (one document first forest (known first (List.mem_cons_self ..))).mono fun _ between takenOut => ?_
    have knownRest : ∀ handle ∈ rest, between.Known handle := fun handle member =>
      takenOut.known_iff.2 (known handle (List.mem_cons_of_mem _ member))
    have sameParents : rest.filter (fun handle => test (between.parent? handle)) =
        rest.filter fun handle => test (document.parent? handle) := by
      refine List.filter_congr fun handle member => ?_
      have other : handle ≠ first := fun same => fresh (same ▸ member)
      rw [takenOut.parents, if_neg fun inside => other (List.mem_singleton.1 (List.mem_filter.1 inside).1)]
    refine (ih (forest.takenOut takenOut) knownRest distinctRest).mono fun _ after takenOutRest => ?_
    rw [sameParents] at takenOutRest
    have both := takenOut.trans takenOutRest
    rwa [← List.filter_append, List.singleton_append] at both

theorem Forest.ensures_detachAll {handles : List Handle} (forest : document.Forest)
    (known : ∀ handle ∈ handles, document.Known handle) (distinct : handles.Nodup) :
    Ensures ⟨False, False⟩ (handles.forM detach) document fun _ after => TakenOut document after handles := by
  have each : Ensures ⟨False, False⟩ (handles.forM detach) document fun _ after =>
      TakenOut document after (handles.filter fun _ => true) :=
    Forest.ensures_each (fun _ => true) detach (fun _ _ forest known => forest.ensures_detach known) forest known distinct
  rwa [List.filter_eq_self.2 fun _ _ => rfl] at each

/-- Taking out one item, if it stands in a target. -/
theorem Forest.ensures_detachFrom {target handle : Handle} (forest : document.Forest) (known : document.Known handle) :
    Ensures ⟨False, False⟩ (detachFrom target handle) document fun _ after =>
      TakenOut document after ([handle].filter fun handle => document.parent? handle == some target) := by
  obtain ⟨item, found⟩ := known_iff.1 known
  rw [detachFrom, ensures_bind, ensures_item found]
  have place := parent?_of_getElem? found
  by_cases inside : item.parent = some target
  · have here : [handle].filter (fun handle => document.parent? handle == some target) = [handle] := by
      simp [place, inside]
    rw [if_pos inside, here]
    exact forest.ensures_detach known
  · have nothing : [handle].filter (fun handle => document.parent? handle == some target) = [] := by
      simp [place, inside]
    rw [if_neg inside, nothing]
    exact .nothing document

/-! The calls. -/

/-- What is recorded does not count for the forest. -/
theorem TakenOut.note {handles : List Handle} (takenOut : TakenOut before after handles) (operation : Operation) :
    TakenOut before (after.note operation) handles :=
  ⟨takenOut.size, takenOut.parents, takenOut.children⟩

/-- Taking known items out of a target comes to its end, and takes out those that stand there. -/
theorem Forest.ensures_unmount {handles : List Handle} (target : Handle) (forest : document.Forest)
    (known : ∀ handle ∈ handles, document.Known handle) (distinct : handles.Nodup) :
    Ensures ⟨False, False⟩ (unmount handles target) document fun _ after =>
      TakenOut document after (handles.filter fun handle => document.parent? handle == some target) := by
  rw [unmount, ensures_bind]
  have each : Ensures ⟨False, False⟩ (handles.forM (detachFrom target)) document fun _ after =>
      TakenOut document after (handles.filter fun handle => document.parent? handle == some target) :=
    Forest.ensures_each (· == some target) (detachFrom target) (fun _ _ forest known => forest.ensures_detachFrom known) forest known
      distinct
  refine each.mono fun _ between takenOut => ?_
  rw [ensures_record]
  exact takenOut.note _

/-- Some handles have been put into a target as one block, right behind an anchor or at the front. -/
structure PutIn (before after : Document Listener) (handles : List Handle) (target : Handle) (anchor : Option Handle) :
    Prop where
  size : after.items.size = before.items.size
  parents : ∀ handle, after.parent? handle = if handle ∈ handles then some target else before.parent? handle
  block : ∃ front back, (before.children target).filter (· ∉ handles) = front ++ back ∧ front.getLast? = anchor ∧
    after.children target = front ++ handles ++ back
  others : ∀ parent, parent ≠ target → after.children parent = (before.children parent).filter (· ∉ handles)

theorem PutIn.childOf {handles : List Handle} {target : Handle} {anchor : Option Handle}
    (putIn : PutIn before after handles target anchor) {child parent : Handle} :
    after.ChildOf child parent ↔ if child ∈ handles then parent = target else before.ChildOf child parent := by
  rw [ChildOf, ChildOf, putIn.parents]
  by_cases inside : child ∈ handles
  · simp [inside, eq_comm]
  · simp [inside]

theorem PutIn.mem_children {handles : List Handle} {target : Handle} {anchor : Option Handle}
    (putIn : PutIn before after handles target anchor) {child parent : Handle} :
    child ∈ after.children parent ↔ if child ∈ handles then parent = target else child ∈ before.children parent := by
  by_cases here : parent = target
  · subst here
    obtain ⟨front, back, split, _, block⟩ := putIn.block
    have outside : child ∈ front ++ back ↔ child ∈ before.children parent ∧ child ∉ handles := by
      rw [← split, List.mem_filter]
      simp
    rw [block]
    simp only [List.mem_append] at outside ⊢
    by_cases inside : child ∈ handles
    · simp [inside]
    · simpa [inside] using outside
  · rw [putIn.others parent here, List.mem_filter]
    by_cases inside : child ∈ handles <;> simp [inside, here]

/-- Whatever is above a target after handles were put into it was above it before. -/
theorem PutIn.above_target {handles : List Handle} {target other : Handle} {anchor : Option Handle}
    (putIn : PutIn before after handles target anchor) (below : ∀ handle ∈ handles, ¬ ReflTransGen before.ChildOf target handle)
    (above : ReflTransGen after.ChildOf target other) : ReflTransGen before.ChildOf target other := by
  induction above with
  | refl => exact .refl
  | tail _ step ih =>
    rw [putIn.childOf, if_neg fun inside => below _ inside ih] at step
    exact ih.tail step

/-- A way up after handles were put into a target either was there before or leads through the
target. -/
theorem PutIn.above {handles : List Handle} {target child other : Handle} {anchor : Option Handle}
    (putIn : PutIn before after handles target anchor) (above : TransGen after.ChildOf child other) :
    TransGen before.ChildOf child other ∨
      TransGen after.ChildOf child target ∧ ReflTransGen after.ChildOf target other := by
  induction above with
  | single step =>
    by_cases inside : child ∈ handles
    · have here := putIn.childOf.1 step
      rw [if_pos inside] at here
      subst here
      exact .inr ⟨.single step, .refl⟩
    · rw [putIn.childOf, if_neg inside] at step
      exact .inl (.single step)
  | tail way step ih =>
    rename_i middle _
    rcases ih with old | ⟨toTarget, fromTarget⟩
    · by_cases inside : middle ∈ handles
      · have here := putIn.childOf.1 step
        rw [if_pos inside] at here
        subst here
        exact .inr ⟨way.tail step, .refl⟩
      · rw [putIn.childOf, if_neg inside] at step
        exact .inl (old.tail step)
    · exact .inr ⟨toTarget, fromTarget.tail step⟩

theorem Forest.putIn {handles : List Handle} {target : Handle} {anchor : Option Handle} (forest : before.Forest)
    (movable : before.Movable handles target) (putIn : PutIn before after handles target anchor) : after.Forest := by
  refine ⟨fun child parent => ?_, fun parent => ?_, fun handle cycle => ?_⟩
  · rw [putIn.childOf, putIn.mem_children]
    split
    · rfl
    · exact forest.linked child parent
  · by_cases here : parent = target
    · subst here
      obtain ⟨front, back, split, _, block⟩ := putIn.block
      have rest : (front ++ back).Nodup := split ▸ (forest.distinct parent).filter _
      have apart : ∀ child ∈ front ++ back, child ∉ handles := by
        rw [← split]
        exact fun child member => by simpa using (List.mem_filter.1 member).2
      rw [block, List.append_assoc, (List.perm_append_comm_assoc front handles back).nodup_iff, List.nodup_append]
      exact ⟨movable.distinct, rest, fun _ inside _ member same => apart _ member (same ▸ inside)⟩
    · rw [putIn.others parent here]
      exact (forest.distinct parent).filter _
  · -- a cycle that was not there before goes through the target, so the target was above itself
    have through : TransGen after.ChildOf target target := by
      rcases putIn.above cycle with old | ⟨toTarget, fromTarget⟩
      · exact (forest.acyclic handle old).elim
      · exact TransGen.trans_right fromTarget toTarget
    obtain ⟨child, fromTarget, step⟩ := TransGen.tail'_iff.1 through
    have old := putIn.above_target movable.below fromTarget
    rw [putIn.childOf, if_neg fun inside => movable.below child inside old] at step
    exact forest.acyclic target (TransGen.tail' old step)

/-- The place behind an anchor, or the front, where handles that stand nowhere are put. -/
theorem Forest.ensures_indexAfter {target : Handle} {anchor : Option Handle} (forest : document.Forest)
    (known : document.Known target) (here : ∀ sibling, anchor = some sibling → sibling ∈ document.children target) :
    Ensures ⟨False, False⟩ (indexAfter target anchor) document fun index after => after = document ∧
      ∃ front back, document.children target = front ++ back ∧ front.getLast? = anchor ∧ front.length = index := by
  obtain ⟨item, found⟩ := known_iff.1 known
  have lists := children_of_getElem? found
  cases anchor with
  | none => exact ⟨rfl, [], _, rfl, rfl, rfl⟩
  | some sibling =>
    obtain ⟨start, back, split⟩ := List.append_of_mem (here sibling rfl)
    have distinct := forest.distinct target
    rw [split] at distinct
    have fresh : sibling ∉ start := fun member =>
      (List.nodup_append.1 distinct).2.2 sibling member sibling (List.mem_cons_self ..) rfl
    rw [lists] at split
    simp only [indexAfter, ensures_bind, ensures_item found, split, idxOf?_append_cons fresh, ensures_pure]
    exact ⟨trivial, start ++ [sibling], back, by simp [lists, split], by simp, by simp⟩

/-- Putting handles that stand nowhere into a target, when its children are split at the place. -/
theorem TakenOut.ensures_insertAt {handles front back : List Handle} {target : Handle}
    (takenOut : TakenOut document between handles) (movable : document.Movable handles target)
    (split : between.children target = front ++ back) :
    Ensures ⟨False, False⟩ (insertAt target front.length handles) between fun _ after =>
      PutIn document after handles target front.getLast? := by
  obtain ⟨item, found⟩ := Document.known_iff.1 (takenOut.known_iff.2 movable.home)
  have known : ∀ handle ∈ handles, ∃ item, between.items[handle]? = some item := fun handle member =>
    Document.known_iff.1 (takenOut.known_iff.2 (movable.known handle member))
  have lists : item.children = front ++ back := by rw [← children_of_getElem? found, split]
  refine (Document.ensures_insertAt target handles front back found lists known movable.apart movable.distinct).mono ?_
  rintro _ after ⟨regrouped, _⟩
  have size : after.items.size = between.items.size := by
    refine Nat.le_antisymm (Nat.le_of_not_lt fun more => ?_) (Nat.le_of_not_lt fun fewer => ?_)
    · have gone := regrouped.items between.items.size
      rw [Array.getElem?_eq_none (Nat.le_refl _), Array.getElem?_eq_getElem more] at gone
      split at gone <;> try split at gone
      all_goals exact nomatch gone
    · have kept := regrouped.items after.items.size
      rw [Array.getElem?_eq_none (Nat.le_refl _), Array.getElem?_eq_getElem fewer] at kept
      split at kept <;> try split at kept
      all_goals exact nomatch kept
  refine ⟨size.trans takenOut.size, fun handle => ?_, ⟨front, back, ?_, rfl, ?_⟩, fun parent elsewhere => ?_⟩
  · have before := takenOut.parents handle
    rw [parent?] at before ⊢
    rw [regrouped.items handle]
    by_cases here : handle = target
    · subst here
      rw [if_neg movable.apart] at before
      rw [if_pos rfl, if_neg movable.apart, ← before, found]
      rfl
    · rw [if_neg here]
      by_cases inside : handle ∈ handles
      · obtain ⟨kept, foundKept⟩ := known handle inside
        rw [if_pos inside, if_pos inside, foundKept]
        rfl
      · rwa [if_neg inside, if_neg inside] at *
  · rw [← takenOut.children, split]
  · rw [Document.children, regrouped.items, if_pos rfl, found]
    rfl
  · rw [← takenOut.children, Document.children, regrouped.items, if_neg elsewhere, Document.children]
    split
    · cases between.items[parent]? <;> rfl
    · rfl

/-- Putting handles behind an anchor either does so, or breaks off when it does not find the anchor
among the children that are left, with the handles taken out. -/
theorem Forest.mount_cases {handles : List Handle} {target : Handle} (anchor : Option Handle) (forest : document.Forest)
    (movable : document.Movable handles target) :
    (∃ after, (mount handles target anchor).run document = (.done (), after) ∧ PutIn document after handles target anchor) ∨
      ∃ sibling after, anchor = some sibling ∧ (sibling ∈ document.children target → sibling ∈ handles) ∧
        (mount handles target anchor).run document = (.panicked (.anchorElsewhere sibling target), after) ∧
        TakenOut document after handles := by
  obtain ⟨_, between, ranDetach, takenOut⟩ := (forest.ensures_detachAll movable.known movable.distinct).done
  have forestBetween := forest.takenOut takenOut
  have knownTarget : between.Known target := takenOut.known_iff.2 movable.home
  by_cases here : ∀ sibling, anchor = some sibling → sibling ∈ between.children target
  · left
    obtain ⟨index, _, ranIndex, rfl, front, back, split, rfl, rfl⟩ :=
      (forestBetween.ensures_indexAfter knownTarget here).done
    obtain ⟨_, after, ranInsert, putIn⟩ := (takenOut.ensures_insertAt movable split).done
    refine ⟨after.note (.insert handles target front.getLast?), ?_, putIn.size, putIn.parents, putIn.block, putIn.others⟩
    rw [mount, run_bind_of_done ranDetach, run_bind_of_done ranIndex, run_bind_of_done ranInsert]
    rfl
  · right
    obtain ⟨sibling, rest⟩ := Classical.not_forall.1 here
    obtain ⟨rfl, missing⟩ := Classical.not_imp.1 rest
    obtain ⟨item, found⟩ := known_iff.1 knownTarget
    have absent : item.children.idxOf? sibling = none := by
      rw [List.idxOf?_eq_none_iff, ← children_of_getElem? found]
      exact missing
    have ranIndex : (indexAfter target (some sibling)).run between = (.panicked (.anchorElsewhere sibling target), between) := by
      rw [indexAfter, run_bind_of_done (run_item found), absent]
      rfl
    refine ⟨sibling, between, rfl, fun child => ?_, ?_, takenOut⟩
    · rw [takenOut.children, List.mem_filter] at missing
      exact Decidable.byContradiction fun outside => missing ⟨child, by simpa using outside⟩
    · rw [mount, run_bind_of_done ranDetach, run_bind_of_panicked ranIndex]

/-! Sequences of calls. -/

inductive Call where
  | createRoot (tag : String)
  | create (tag : String)
  | createText (text : String)
  | mount (handles : List Handle) (target : Handle) (anchor : Option Handle)
  | unmount (handles : List Handle) (target : Handle)

def Call.perform : Call → Edit Listener Unit
  | .createRoot tag => discard (Document.createRoot tag)
  | .create tag => discard (Document.create tag)
  | .createText text => discard (Document.createText text)
  | .mount handles target anchor => Document.mount handles target anchor
  | .unmount handles target => Document.unmount handles target

/-- A call that puts nothing below itself, with items that are known. -/
def Call.Allowed (document : Document Listener) : Call → Prop
  | .createRoot _ | .create _ | .createText _ => True
  | .mount handles target _ | .unmount handles target => document.Movable handles target

/-- The documents that allowed calls lead to, each with whatever a call left that broke off. -/
inductive Reached : Document Listener → Prop where
  | empty (document : Document Listener) (nothing : document.items = #[]) : Reached document
  | call {document : Document Listener} (reached : Reached document) (call : Call) (allowed : call.Allowed document) :
      Reached (call.perform.run document).2

theorem forest_empty (nothing : document.items = #[]) : document.Forest := by
  have parents : ∀ handle, document.parent? handle = none := fun handle => by simp [parent?, nothing]
  have lists : ∀ handle, document.children handle = [] := fun handle => by simp [children, nothing]
  refine ⟨fun child parent => ?_, fun parent => ?_, fun handle cycle => ?_⟩
  · simp [ChildOf, parents, lists]
  · simp [lists]
  · obtain ⟨parent, stands, _⟩ := TransGen.head'_iff.1 cycle
    rw [ChildOf, parents] at stands
    cases stands

/-- One call leaves a forest, whether it comes to its end or not. -/
theorem Forest.call (forest : document.Forest) (call : Call) (allowed : call.Allowed document) :
    (call.perform.run document).2.Forest := by
  cases call with
  | createRoot tag => exact forest.push (.element tag [])
  | create tag => exact (forest.push (.element tag [])).congr rfl rfl
  | createText text => exact (forest.push (.text text)).congr rfl rfl
  | mount handles target anchor =>
    rcases forest.mount_cases anchor allowed with ⟨after, ran, putIn⟩ | ⟨_, after, _, _, ran, takenOut⟩
    · rw [Call.perform, ran]
      exact forest.putIn allowed putIn
    · rw [Call.perform, ran]
      exact forest.takenOut takenOut
  | unmount handles target =>
    obtain ⟨_, after, ran, takenOut⟩ := (forest.ensures_unmount target allowed.known allowed.distinct).done
    rw [Call.perform, ran]
    exact forest.takenOut takenOut

theorem Reached.forest (reached : document.Reached) : document.Forest := by
  induction reached with
  | empty document nothing => exact forest_empty nothing
  | call _ call allowed forest => exact forest.call call allowed

/-- Whatever allowed calls lead to is a forest, and a mount that returns moves its handles to the
place right behind the anchor, as one block, and nothing else. -/
theorem forest_and_putIn_of_reached (reached : document.Reached) :
    document.Forest ∧ ∀ handles target anchor after, document.Movable handles target →
      (mount handles target anchor).run document = (.done (), after) → PutIn document after handles target anchor := by
  refine ⟨reached.forest, fun handles target anchor after movable returned => ?_⟩
  rcases reached.forest.mount_cases anchor movable with ⟨_, ran, putIn⟩ | ⟨_, _, _, _, ran, _⟩
  · rw [returned] at ran
    cases ran
    exact putIn
  · rw [returned] at ran
    cases ran

/-- Whatever is not the target can be put into a target that stands nowhere itself. -/
theorem movable_of_top {handles : List Handle} {target : Handle} (home : document.Known target)
    (top : document.parent? target = none) (known : ∀ handle ∈ handles, document.Known handle) (distinct : handles.Nodup)
    (apart : target ∉ handles) : document.Movable handles target := by
  refine ⟨home, known, distinct, fun handle inside above => ?_⟩
  rcases ReflTransGen.cases_head above with rfl | ⟨parent, stands, _⟩
  · exact apart inside
  · rw [ChildOf, top] at stands
    cases stands

/-- Three items on a root, of which the second is not put in yet. -/
def shelf : Document Unit :=
  [Call.createRoot "div", .create "a", .create "b", .create "c", .mount [1] 0 none, .mount [3] 0 (some 1)].foldl
    (fun document call => (call.perform.run document).2) {}

theorem forest_and_putIn_of_reached_shelf : Reached shelf ∧ shelf.Movable [3, 2] 0 ∧ shelf.Forest ∧
    ∃ after, (mount [3, 2] 0 none).run shelf = (.done (), after) ∧ PutIn shelf after [3, 2] 0 none ∧ after.children 0 = [3, 2, 1] := by
  have created : Reached ([Call.createRoot "div", .create "a", .create "b", .create "c"].foldl
      (fun document call => (call.perform.run document).2) ({} : Document Unit)) :=
    ((((Reached.empty {} rfl).call (.createRoot "div") trivial).call (.create "a") trivial).call (.create "b") trivial).call
      (.create "c") trivial
  have filled : Reached shelf :=
    (created.call (.mount [1] 0 none) (movable_of_top (by decide) rfl (by decide) (by decide) (by decide))).call
      (.mount [3] 0 (some 1)) (movable_of_top (by decide) rfl (by decide) (by decide) (by decide))
  have movable : shelf.Movable [3, 2] 0 := movable_of_top (by decide) rfl (by decide) (by decide) (by decide)
  obtain ⟨forest, putIn⟩ := forest_and_putIn_of_reached filled
  exact ⟨filled, movable, forest, _, rfl, putIn [3, 2] 0 none _ movable rfl, rfl⟩

end ReactiveMarkup.Document
