import ReactiveMarkup.Document
import ReactiveMarkup.Proofs.StepLogic

/-! What the steps on a document do to the children of one target. Handles that stand in the
target can be taken out, and handles that stand nowhere can be put in, as one block. -/

namespace ReactiveMarkup

theorem insertIdx_length_append {α : Type} (front back : List α) (member : α) :
    (front ++ back).insertIdx front.length member = front ++ member :: back := by
  induction front with
  | nil => rfl
  | cons first rest ih => simp [List.insertIdx_succ_cons, ih]

theorem idxOf?_append_cons {α : Type} [BEq α] [LawfulBEq α] {front back : List α} {member : α} (fresh : member ∉ front) :
    (front ++ member :: back).idxOf? member = some front.length := by
  induction front with
  | nil => simp [List.idxOf?_cons]
  | cons first rest ih =>
    have other : first ≠ member := fun same => fresh (same ▸ List.mem_cons_self ..)
    have rest := ih fun inside => fresh (List.mem_cons_of_mem _ inside)
    simp [List.idxOf?_cons, other, rest]

namespace Document

open ReactiveMarkup.Step

variable {Listener : Type} {breaks : Breaks} {document before after : Document Listener}

/-- The children of a target: they are known, they stand in the target, and each stands there
once. -/
structure Stands (document : Document Listener) (target : Handle) (children : List Handle) : Prop where
  here : ∃ item, document.items[target]? = some item ∧ item.children = children
  distinct : children.Nodup
  inside : ∀ child ∈ children, ∃ item, document.items[child]? = some item ∧ item.parent = some target
  apart : target ∉ children

/-- Some known handles that stand nowhere. -/
def Loose (document : Document Listener) (handles : List Handle) : Prop :=
  ∀ handle ∈ handles, ∃ item, document.items[handle]? = some item ∧ item.parent = none

/-- A change of the children of a target and of the parents of some handles. -/
structure Regrouped (before after : Document Listener) (target : Handle) (children : List Handle)
    (handles : List Handle) (parent : Option Handle) : Prop where
  items : ∀ handle, after.items[handle]? =
    if handle = target then (before.items[handle]?).map fun item => { item with children }
    else if handle ∈ handles then (before.items[handle]?).map fun item => { item with parent }
    else before.items[handle]?
  subscriptions : after.subscriptions = before.subscriptions
  nextSubscription : after.nextSubscription = before.nextSubscription

theorem getElem?_modify (document : Document Listener) (handle other : Handle) (f : Item → Item) :
    (document.modify handle f).items[other]? =
      if other = handle then (document.items[other]?).map f else document.items[other]? := by
  rw [modify, Array.getElem?_modify]
  by_cases here : other = handle
  · simp [here]
  · simp [here, Ne.symm here]

theorem children_of_getElem? {handle : Handle} {item : Item} (found : document.items[handle]? = some item) :
    document.children handle = item.children := by
  simp [children, found]

theorem Stands.children {target : Handle} {children : List Handle} (stands : document.Stands target children) :
    document.children target = children := by
  obtain ⟨item, found, rfl⟩ := stands.here
  exact children_of_getElem? found

theorem ensures_item {handle : Handle} {item : Item} (found : document.items[handle]? = some item)
    (post : Item → Document Listener → Prop) :
    Ensures breaks (Document.item handle) document post ↔ post item document := by
  simp only [Document.item, ensures_bind, ensures_get, found, ensures_pure]

theorem ensures_update {handle : Handle} {item : Item} (found : document.items[handle]? = some item)
    (f : Item → Item) (post : Unit → Document Listener → Prop) :
    Ensures breaks (update handle f) document post ↔ post () (document.modify handle f) := by
  simp only [update, ensures_bind, ensures_item found, ensures_modifyGet]

theorem ensures_record (operation : Operation) (post : Unit → Document Listener → Prop) :
    Ensures breaks (record operation) document post ↔ post () (document.note operation) := Iff.rfl

/-! Taking out. -/

theorem ensures_detachFrom {target handle : Handle} {item parent : Item} (found : document.items[handle]? = some item)
    (foundTarget : document.items[target]? = some parent) (inside : item.parent = some target)
    (apart : handle ≠ target) (post : Unit → Document Listener → Prop) :
    Ensures breaks (detachFrom target handle) document post ↔
      post () ((document.modify handle fun item => { item with parent := none }).modify target fun item =>
        { item with children := item.children.filter (· != handle) }) := by
  have foundAfter : (document.modify handle fun item => { item with parent := none }).items[target]? = some parent := by
    rw [getElem?_modify, if_neg (Ne.symm apart), foundTarget]
  simp only [detachFrom, detach, ensures_bind, ensures_item found, inside, if_true, ensures_update found,
    ensures_update foundAfter]

/-- One handle less in a target. -/
private theorem stands_detached {target handle : Handle} {children : List Handle}
    (stands : document.Stands target children) (inside : handle ∈ children) :
    ((document.modify handle fun item => { item with parent := none }).modify target fun item =>
      { item with children := item.children.filter (· != handle) }).Stands target (children.filter (· != handle)) := by
  have apart : handle ≠ target := fun here => stands.apart (here ▸ inside)
  obtain ⟨item, found, rfl⟩ := stands.here
  refine ⟨⟨{ item with children := item.children.filter (· != handle) }, ?_, rfl⟩, stands.distinct.filter _,
    fun child member => ?_, fun member => stands.apart (List.mem_filter.1 member).1⟩
  · rw [getElem?_modify, if_pos rfl, getElem?_modify, if_neg (Ne.symm apart), found]
    rfl
  · obtain ⟨old, other⟩ := List.mem_filter.1 member
    obtain ⟨kept, foundKept, standsIn⟩ := stands.inside child old
    have notTarget : child ≠ target := fun here => stands.apart (here ▸ old)
    refine ⟨kept, ?_, standsIn⟩
    rw [getElem?_modify, if_neg notTarget, getElem?_modify, if_neg (by simpa using other), foundKept]

/-- Takes handles out of their target one after the other. -/
theorem ensures_detachAll (target : Handle) (handles : List Handle) {children : List Handle}
    (stands : document.Stands target children) (inside : handles ⊆ children) (distinct : handles.Nodup) :
    Ensures breaks (handles.forM (detachFrom target)) document fun _ after =>
      Regrouped document after target (children.filter (· ∉ handles)) handles none ∧
        after.history = document.history := by
  induction handles generalizing document children with
  | nil =>
    refine ⟨⟨fun handle => ?_, rfl, rfl⟩, rfl⟩
    obtain ⟨item, found, same⟩ := stands.here
    split
    next here =>
      subst here
      have all : children.filter (· ∉ ([] : List Handle)) = children := by simp
      rw [all, found, ← same]
      rfl
    next => simp
  | cons first rest ih =>
    obtain ⟨parent, foundTarget, same⟩ := stands.here
    have member : first ∈ children := inside (List.mem_cons_self ..)
    obtain ⟨item, found, standsIn⟩ := stands.inside first member
    have apart : first ≠ target := fun here => stands.apart (here ▸ member)
    obtain ⟨fresh, distinctRest⟩ := List.nodup_cons.1 distinct
    rw [ensures_forM_cons, ensures_detachFrom found foundTarget standsIn apart]
    refine (ih (stands_detached stands member) ?_ distinctRest).mono fun _ after ⟨regrouped, history⟩ => ⟨⟨?_, ?_, ?_⟩, ?_⟩
    · intro handle known
      have other : handle ≠ first := fun here => fresh (here ▸ known)
      exact List.mem_filter.2 ⟨inside (List.mem_cons_of_mem _ known), by simpa using other⟩
    · intro handle
      rw [regrouped.items handle]
      by_cases here : handle = target
      · subst here
        simp only [if_true, getElem?_modify, if_neg (Ne.symm apart), foundTarget, Option.map_some, List.filter_filter]
        congr 2
        refine List.filter_congr fun child _ => ?_
        simp only [List.mem_cons, not_or]
        by_cases childFirst : child = first <;> simp [childFirst]
      · simp only [if_neg here, getElem?_modify, List.mem_cons]
        by_cases isFirst : handle = first
        · subst isFirst
          simp [fresh]
        · simp [isFirst]
    · rw [regrouped.subscriptions]; rfl
    · rw [regrouped.nextSubscription]; rfl
    · rw [history]; rfl

/-- Some handles less in a target. -/
theorem ensures_unmount {target : Handle} {handles children : List Handle}
    (stands : document.Stands target children) (inside : handles ⊆ children) (distinct : handles.Nodup) :
    Ensures breaks (unmount handles target) document fun _ after =>
      Regrouped document after target (children.filter (· ∉ handles)) handles none ∧
        after.history = .remove handles target :: document.history := by
  rw [unmount, ensures_bind]
  refine (ensures_detachAll target handles stands inside distinct).mono fun _ between ⟨regrouped, history⟩ => ?_
  rw [ensures_record]
  exact ⟨⟨regrouped.items, regrouped.subscriptions, regrouped.nextSubscription⟩, by rw [note, history]⟩

/-! Putting in. -/

theorem ensures_detach_loose {handles : List Handle} (loose : document.Loose handles)
    (post : PUnit → Document Listener → Prop) :
    Ensures breaks (handles.forM detach) document post ↔ post ⟨⟩ document := by
  induction handles with
  | nil => exact ensures_forM_nil ..
  | cons first rest ih =>
    obtain ⟨item, found, nowhere⟩ := loose first (List.mem_cons_self ..)
    rw [ensures_forM_cons, detach, ensures_bind, ensures_item found]
    simp only [nowhere, ensures_pure]
    exact ih fun handle known => loose handle (List.mem_cons_of_mem _ known)

/-- One handle more in a target, which need not stand as it should before. -/
theorem ensures_insertAt (target : Handle) (handles front back : List Handle) {item : Item}
    (found : document.items[target]? = some item) (children : item.children = front ++ back)
    (known : ∀ handle ∈ handles, ∃ item, document.items[handle]? = some item) (apart : target ∉ handles)
    (distinct : handles.Nodup) :
    Ensures breaks (insertAt target front.length handles) document fun _ after =>
      Regrouped document after target (front ++ handles ++ back) handles (some target) ∧
        after.history = document.history := by
  induction handles generalizing document front item with
  | nil =>
    refine ⟨⟨fun handle => ?_, rfl, rfl⟩, rfl⟩
    split
    next here =>
      subst here
      rw [found, List.append_nil, ← children]
      rfl
    next => simp
  | cons first rest ih =>
    obtain ⟨other, foundFirst⟩ := known first (List.mem_cons_self ..)
    have firstApart : first ≠ target := fun here => apart (here ▸ List.mem_cons_self ..)
    obtain ⟨fresh, distinctRest⟩ := List.nodup_cons.1 distinct
    let placed := document.modify first fun item => { item with parent := some target }
    have foundPlaced : placed.items[target]? = some item := by
      rw [getElem?_modify, if_neg (Ne.symm firstApart), found]
    have within : ¬ item.children.length < front.length := by
      rw [children, List.length_append]
      omega
    rw [insertAt, ensures_bind, ensures_update foundFirst, ensures_bind, ensures_item foundPlaced]
    simp only [if_neg within, ensures_bind, ensures_update foundPlaced]
    let grown := placed.modify target fun item => { item with children := item.children.insertIdx front.length first }
    have foundGrown : grown.items[target]? =
        some { item with children := item.children.insertIdx front.length first } := by
      rw [getElem?_modify, if_pos rfl, foundPlaced]
      rfl
    have childrenGrown : item.children.insertIdx front.length first = (front ++ [first]) ++ back := by
      rw [children, insertIdx_length_append]
      simp
    have knownRest : ∀ handle ∈ rest, ∃ item, grown.items[handle]? = some item := by
      intro handle member
      obtain ⟨kept, foundKept⟩ := known handle (List.mem_cons_of_mem _ member)
      have notTarget : handle ≠ target := fun here => apart (here ▸ List.mem_cons_of_mem _ member)
      have notFirst : handle ≠ first := fun here => fresh (here ▸ member)
      exact ⟨kept, by rw [getElem?_modify, if_neg notTarget, getElem?_modify, if_neg notFirst, foundKept]⟩
    have recursion := ih (front ++ [first]) foundGrown childrenGrown knownRest
      (fun member => apart (List.mem_cons_of_mem _ member)) distinctRest
    rw [List.length_append, List.length_singleton] at recursion
    refine recursion.mono ?_
    rintro _ after ⟨regrouped, history⟩
    refine ⟨⟨fun handle => ?_, ?_, ?_⟩, ?_⟩
    · rw [regrouped.items handle]
      by_cases here : handle = target
      · subst here
        simp [foundGrown, found]
      · simp only [if_neg here, grown, placed, getElem?_modify, List.mem_cons]
        by_cases isFirst : handle = first
        · subst isFirst
          simp [fresh]
        · simp [isFirst]
    · rw [regrouped.subscriptions]; rfl
    · rw [regrouped.nextSubscription]; rfl
    · rw [history]; rfl

/-- The place behind the last of some children that stand in front. -/
theorem ensures_indexAfter {target : Handle} (front back : List Handle)
    (stands : document.Stands target (front ++ back)) (post : Nat → Document Listener → Prop) :
    Ensures breaks (indexAfter target front.getLast?) document post ↔ post front.length document := by
  obtain ⟨item, found, children⟩ := stands.here
  cases last : front.getLast? with
  | none =>
    rw [List.getLast?_eq_none_iff] at last
    simp only [indexAfter, ensures_pure, last, List.length_nil]
  | some anchor =>
    obtain ⟨start, rfl⟩ := List.getLast?_eq_some_iff.1 last
    have distinct := stands.distinct
    rw [List.append_assoc] at children distinct
    have fresh : anchor ∉ start := fun member =>
      (List.nodup_append.1 distinct).2.2 anchor member anchor (List.mem_cons_self ..) rfl
    have index : item.children.idxOf? anchor = some start.length := by
      rw [children]
      exact idxOf?_append_cons fresh
    simp only [indexAfter, ensures_bind, ensures_item found, index, ensures_pure, List.length_append,
      List.length_singleton]

theorem ensures_mount {target : Handle} {handles front back : List Handle}
    (stands : document.Stands target (front ++ back)) (loose : document.Loose handles) (distinct : handles.Nodup)
    (apart : target ∉ handles) :
    Ensures breaks (mount handles target front.getLast?) document fun _ after =>
      Regrouped document after target (front ++ handles ++ back) handles (some target) ∧
        after.history = .insert handles target front.getLast? :: document.history := by
  obtain ⟨item, found, children⟩ := stands.here
  rw [mount, ensures_bind, ensures_detach_loose loose, ensures_bind, ensures_indexAfter front back stands, ensures_bind]
  refine (ensures_insertAt target handles front back found children ?_ apart distinct).mono ?_
  · intro handle known
    obtain ⟨item, found, _⟩ := loose handle known
    exact ⟨item, found⟩
  · rintro _ between ⟨regrouped, history⟩
    rw [ensures_record]
    exact ⟨⟨regrouped.items, regrouped.subscriptions, regrouped.nextSubscription⟩, by rw [note, history]⟩

/-! What stands where afterwards. -/

theorem Stands.removed {target : Handle} {handles children : List Handle} (stands : before.Stands target children)
    (inside : handles ⊆ children)
    (regrouped : Regrouped before after target (children.filter (· ∉ handles)) handles none) :
    after.Stands target (children.filter (· ∉ handles)) ∧ after.Loose handles := by
  obtain ⟨item, found, _⟩ := stands.here
  refine ⟨⟨⟨_, by rw [regrouped.items, if_pos rfl, found]; rfl, rfl⟩, stands.distinct.filter _, fun child member => ?_,
    fun member => stands.apart (List.mem_filter.1 member).1⟩, fun handle known => ?_⟩
  · obtain ⟨old, kept⟩ := List.mem_filter.1 member
    obtain ⟨item, found, standsIn⟩ := stands.inside child old
    have apart : child ≠ target := fun here => stands.apart (here ▸ old)
    exact ⟨item, by rw [regrouped.items, if_neg apart, if_neg (by simpa using kept), found], standsIn⟩
  · obtain ⟨item, found, _⟩ := stands.inside handle (inside known)
    have apart : handle ≠ target := fun here => stands.apart (here ▸ inside known)
    exact ⟨{ item with parent := none }, by rw [regrouped.items, if_neg apart, if_pos known, found]; rfl, rfl⟩

theorem Stands.inserted {target : Handle} {handles front back : List Handle}
    (stands : before.Stands target (front ++ back)) (known : ∀ handle ∈ handles, ∃ item, before.items[handle]? = some item)
    (apart : target ∉ handles) (distinct : (front ++ handles ++ back).Nodup)
    (regrouped : Regrouped before after target (front ++ handles ++ back) handles (some target)) :
    after.Stands target (front ++ handles ++ back) := by
  obtain ⟨item, found, _⟩ := stands.here
  have outside : target ∉ front ++ handles ++ back := by
    have apartOld := stands.apart
    simp only [List.mem_append, not_or] at apartOld ⊢
    exact ⟨⟨apartOld.1, apart⟩, apartOld.2⟩
  refine ⟨⟨_, by rw [regrouped.items, if_pos rfl, found]; rfl, rfl⟩, distinct, fun child member => ?_, outside⟩
  have notTarget : child ≠ target := fun here => outside (here ▸ member)
  by_cases new : child ∈ handles
  · obtain ⟨item, found⟩ := known child new
    exact ⟨{ item with parent := some target },
      by rw [regrouped.items, if_neg notTarget, if_pos new, found]; rfl, rfl⟩
  · have old : child ∈ front ++ back := by
      simp only [List.mem_append] at member ⊢
      exact member.imp_left fun either => either.resolve_right new
    obtain ⟨item, found, standsIn⟩ := stands.inside child old
    exact ⟨item, by rw [regrouped.items, if_neg notTarget, if_neg new, found], standsIn⟩

/-- Whether the first handle of a block comes right behind a place, or at the front. -/
theorem ensures_inPlace {target first : Handle} {rest front back : List Handle} (place : Option Handle)
    (stands : document.Stands target (front ++ first :: back)) (post : Bool → Document Listener → Prop) :
    Ensures breaks (match place with
      | some anchor => isAfter (first :: rest) anchor
      | none => isFirst (first :: rest) target) document post ↔ post (front.getLast? == place) document := by
  obtain ⟨item, found, children⟩ := stands.here
  obtain ⟨child, foundFirst, standsIn⟩ := stands.inside first (by simp)
  have fresh : first ∉ front := fun member =>
    (List.nodup_append.1 stands.distinct).2.2 first member first (List.mem_cons_self ..) rfl
  cases place with
  | some anchor =>
    simp only [isAfter, ensures_bind, ensures_item foundFirst, standsIn, ensures_item found, children,
      idxOf?_append_cons fresh]
    cases last : front.getLast? with
    | none =>
      rw [List.getLast?_eq_none_iff] at last
      simp [last]
    | some sibling =>
      obtain ⟨start, rfl⟩ := List.getLast?_eq_some_iff.1 last
      simp
  | none =>
    simp only [isFirst, ensures_bind, ensures_item found, ensures_pure, children]
    cases front with
    | nil => simp
    | cons head tail =>
      have other : head ≠ first := fun same => fresh (same ▸ List.mem_cons_self ..)
      have isFirst : (((head :: tail) ++ first :: back).head? == some first) = false := by simpa using other
      have isLast : ((head :: tail).getLast? == none) = false := by
        cases last : (head :: tail).getLast? with
        | none => simp at last
        | some => rfl
      rw [isFirst, isLast]

private theorem filter_block {front handles back : List Handle} (distinct : (front ++ handles ++ back).Nodup) :
    (front ++ handles ++ back).filter (· ∉ handles) = front ++ back := by
  obtain ⟨distinctFront, _, apartBack⟩ := List.nodup_append.1 distinct
  have apartFront := (List.nodup_append.1 distinctFront).2.2
  have keepFront : front.filter (· ∉ handles) = front := by
    rw [List.filter_eq_self]
    intro handle member
    simpa using fun inside => apartFront handle member handle inside rfl
  have keepBack : back.filter (· ∉ handles) = back := by
    rw [List.filter_eq_self]
    intro handle member
    simpa using fun inside => apartBack handle (List.mem_append_right _ inside) handle member rfl
  have dropHandles : handles.filter (· ∉ handles) = [] := by
    rw [List.filter_eq_nil_iff]
    simp
  rw [List.filter_append, List.filter_append, keepFront, keepBack, dropHandles, List.append_nil]

theorem Stands.filter_block {target : Handle} {front handles back : List Handle}
    (stands : document.Stands target (front ++ handles ++ back)) :
    (front ++ handles ++ back).filter (· ∉ handles) = front ++ back :=
  Document.filter_block stands.distinct

/-- Moving a block towards the front of its target. -/
theorem ensures_move {target : Handle} {front middle handles back : List Handle}
    (stands : document.Stands target (front ++ middle ++ handles ++ back)) :
    Ensures breaks (do
        unmount handles target
        mount handles target front.getLast?) document fun _ after =>
      Regrouped document after target (front ++ handles ++ (middle ++ back)) [] none ∧
        after.Stands target (front ++ handles ++ (middle ++ back)) := by
  have inside : handles ⊆ front ++ middle ++ handles ++ back := fun handle member => by simp [member]
  have distinct : handles.Nodup := (List.nodup_append.1 (List.nodup_append.1 stands.distinct).1).2.1
  have apart : target ∉ handles := fun member => stands.apart (inside member)
  rw [ensures_bind]
  refine (ensures_unmount stands inside distinct).mono fun _ between ⟨out, _⟩ => ?_
  obtain ⟨standsOut, loose⟩ := stands.removed inside out
  rw [stands.filter_block, List.append_assoc] at standsOut
  refine (ensures_mount standsOut loose distinct apart).mono fun _ after ⟨back_, _⟩ => ?_
  have distinctBack : (front ++ handles ++ (middle ++ back)).Nodup := by
    refine (List.Perm.nodup_iff ?_).1 stands.distinct
    simp only [List.append_assoc]
    refine List.Perm.append_left front ?_
    rw [← List.append_assoc, ← List.append_assoc]
    exact List.Perm.append_right back List.perm_append_comm
  have known : ∀ handle ∈ handles, ∃ item, between.items[handle]? = some item := fun handle member => by
    obtain ⟨item, found, _⟩ := loose handle member
    exact ⟨item, found⟩
  refine ⟨⟨fun handle => ?_, ?_, ?_⟩, standsOut.inserted known apart distinctBack back_⟩
  · rw [back_.items, out.items]
    by_cases here : handle = target
    · subst here
      simp [Option.map_map, Function.comp_def]
    · by_cases moved : handle ∈ handles
      · obtain ⟨item, found, standsIn⟩ := stands.inside handle (inside moved)
        simp [here, moved, found, ← standsIn]
      · simp [here, moved]
  · rw [back_.subscriptions, out.subscriptions]
  · rw [back_.nextSubscription, out.nextSubscription]

end Document

end ReactiveMarkup
