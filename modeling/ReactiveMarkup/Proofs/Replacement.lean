import ReactiveMarkup.Proofs.DocumentForest

/-! Replacing some children of a container by other handles. The place is the one that the first of
the old handles has while the others still stand, so it is the right one exactly if none of them
stands in front of the first. -/

namespace ReactiveMarkup.Document

open ReactiveMarkup.Step Relation

variable {Listener : Type} {document before between after : Document Listener} {container first : Handle}
  {new rest front back : List Handle}

/-! Running steps on items that are known. -/

theorem run_update {handle : Handle} {item : Item} (found : document.items[handle]? = some item) (f : Item → Item) :
    (update handle f).run document = (.done (), document.modify handle f) := by
  rw [update, run_bind_of_done (run_item found)]
  rfl

theorem run_firstIndex {others : List Handle} (known : document.Known container) :
    (firstIndex container (first :: others)).run document =
      (.done ((document.children container).idxOf? first), document) := by
  obtain ⟨item, found⟩ := known_iff.1 known
  rw [firstIndex, run_bind_of_done (run_item found), children_of_getElem? found]
  rfl

/-- Handles cannot be put behind the end. -/
theorem run_insertAt_beyond {handle : Handle} {others : List Handle} {index : Nat} (home : document.Known container)
    (known : document.Known handle) (apart : container ≠ handle) (beyond : (document.children container).length < index) :
    (insertAt container index (handle :: others)).run document =
      (.panicked (.insertionIndex index (document.children container).length),
        document.modify handle fun item => { item with parent := some container }) := by
  obtain ⟨item, found⟩ := known_iff.1 known
  obtain ⟨owner, foundOwner⟩ := known_iff.1 home
  have foundStill : (document.modify handle fun item => { item with parent := some container }).items[container]? = some owner := by
    rw [getElem?_modify, if_neg apart, foundOwner]
  rw [children_of_getElem? foundOwner] at beyond ⊢
  rw [insertAt, run_bind_of_done (run_update found _), run_bind_of_done (run_item foundStill), if_pos beyond]
  rfl

/-! The documents on the way. -/

/-- Handles that have been taken out can be put into a target that they could be put into before. -/
theorem Movable.takenOut {handles others : List Handle} (movable : before.Movable handles container)
    (takenOut : TakenOut before after others) : after.Movable handles container := by
  refine ⟨takenOut.known_iff.2 movable.home, fun handle inside => takenOut.known_iff.2 (movable.known handle inside),
    movable.distinct, fun handle inside above => movable.below handle inside ?_⟩
  exact ReflTransGen.mono (fun _ _ stands => (takenOut.childOf.1 stands).2) _ _ above

/-- Handles that stand nowhere need not be taken out. -/
theorem TakenOut.again {handles others : List Handle} (takenOut : TakenOut before after others) (inside : handles ⊆ others) :
    TakenOut after after handles := by
  refine ⟨rfl, fun handle => ?_, fun parent => ?_⟩
  · split
    next member => rw [takenOut.parents, if_pos (inside member)]
    next => rfl
  · rw [takenOut.children, List.filter_filter]
    refine List.filter_congr fun child _ => ?_
    by_cases member : child ∈ handles
    · simp [inside member]
    · simp [member]

/-- What a replacement that comes to its end leaves: the new handles as a block behind some of the
children that stay, the old ones nowhere, and everything else where it was. -/
structure Replaced (before after : Document Listener) (container : Handle) (new old : List Handle) (place : Nat) : Prop where
  parents : ∀ handle, after.parent? handle =
    if handle ∈ new then some container else if handle ∈ old then none else before.parent? handle
  children : after.children container =
    ((before.children container).filter (· ∉ new ++ old)).take place ++ new ++
      ((before.children container).filter (· ∉ new ++ old)).drop place
  others : ∀ parent, parent ≠ container → after.children parent = (before.children parent).filter (· ∉ new)
  forest : after.Forest

/-- The old handles and those that are to stand in their place. -/
structure Replaceable (document : Document Listener) (container : Handle) (new old : List Handle) : Prop where
  movable : document.Movable new container
  distinct : old.Nodup
  inside : old ⊆ document.children container
  apart : ∀ handle ∈ new, handle ∉ old

/-- Up to the place where the new handles are put, a replacement takes all handles out. -/
theorem Replaceable.run_replace (forest : document.Forest) (replaceable : document.Replaceable container new (first :: rest)) :
    ∃ index cleared, ((document.children container).filter (· ∉ new)).idxOf? first = some index ∧
      TakenOut document cleared (new ++ first :: rest) ∧
      (replace container new (first :: rest)).run document = (do
        insertAt container index new
        record (.replace container new (first :: rest)) : Edit Listener Unit).run cleared := by
  have ⟨movable, distinct, inside, apart⟩ := replaceable
  obtain ⟨_, between, ranNew, outNew⟩ := (forest.ensures_detachAll movable.known movable.distinct).done
  have stands : ∀ handle ∈ first :: rest, between.parent? handle = some container := by
    intro handle member
    rw [outNew.parents, if_neg fun isNew => apart handle isNew member]
    exact (forest.linked handle container).2 (inside member)
  have isChild : first ∈ between.children container :=
    ((forest.takenOut outNew).linked first container).1 (stands first (List.mem_cons_self ..))
  obtain ⟨index, found⟩ : ∃ index, (between.children container).idxOf? first = some index :=
    Option.ne_none_iff_exists'.1 fun none => (List.idxOf?_eq_none_iff.1 none) isChild
  have each : Ensures ⟨False, False⟩ ((first :: rest).forM (detachFrom container)) between fun _ after =>
      TakenOut between after ((first :: rest).filter fun handle => between.parent? handle == some container) :=
    Forest.ensures_each (· == some container) (detachFrom container) (fun _ _ forest known => forest.ensures_detachFrom known)
      (forest.takenOut outNew) (fun handle member => known_of_parent? (stands handle member)) distinct
  obtain ⟨_, cleared, ranOld, outOld⟩ := each.done
  rw [List.filter_eq_self.2 fun handle member => beq_iff_eq.2 (stands handle member)] at outOld
  have home : between.Known container := outNew.known_iff.2 movable.home
  refine ⟨index, cleared, by rw [← outNew.children, found], outNew.trans outOld, ?_⟩
  rw [replace, run_bind_of_done ranNew, run_bind_of_done (run_firstIndex home), found]
  exact run_bind_of_done ranOld

/-- What is recorded does not count. -/
theorem Replaced.note {old : List Handle} {place : Nat} (replaced : Replaced before after container new old place)
    (operation : Operation) : Replaced before (after.note operation) container new old place :=
  ⟨replaced.parents, replaced.children, replaced.others, replaced.forest.congr rfl rfl⟩

/-- The old handles stand in the container only. -/
theorem Replaceable.filter_elsewhere {old : List Handle} {parent : Handle} (forest : document.Forest)
    (replaceable : document.Replaceable container new old) (elsewhere : parent ≠ container) :
    (document.children parent).filter (· ∉ new ++ old) = (document.children parent).filter (· ∉ new) := by
  refine List.filter_congr fun child member => ?_
  have notOld : child ∉ old := fun isOld => elsewhere (Option.some.inj
    (((forest.linked child parent).2 member).symm.trans ((forest.linked child container).2 (replaceable.inside isOld))))
  by_cases isNew : child ∈ new <;> simp [isNew, notOld]

/-- Where there is room for them, the new handles are put in. -/
theorem Replaceable.run_insertAt {cleared : Document Listener} {old : List Handle} {index : Nat} (forest : document.Forest)
    (replaceable : document.Replaceable container new old) (takenOut : TakenOut document cleared (new ++ old))
    (room : new = [] ∨ index ≤ (cleared.children container).length) :
    ∃ after, (insertAt container index new).run cleared = (.done (), after) ∧ Replaced document after container new old index := by
  obtain rfl | room := room
  · refine ⟨cleared, by rw [insertAt]; rfl, fun handle => by simpa using takenOut.parents handle, ?_, fun parent elsewhere => ?_,
      forest.takenOut takenOut⟩
    · rw [takenOut.children, List.append_nil, List.take_append_drop]
    · rw [takenOut.children, replaceable.filter_elsewhere forest elsewhere]
  · have movable := replaceable.movable.takenOut takenOut
    have out := takenOut.again (List.subset_append_left new old)
    have whole := List.take_append_drop index (cleared.children container)
    obtain ⟨item, found⟩ := known_iff.1 movable.home
    have put := out.ensures_insertAt movable whole.symm
    rw [List.length_take, Nat.min_eq_left room] at put
    obtain ⟨_, after, ran, putIn⟩ := put.done
    have ended : Ensures ⟨False, False⟩ (insertAt container ((cleared.children container).take index).length new) cleared _ :=
      Document.ensures_insertAt container new _ _ found (by rw [← children_of_getElem? found, whole])
        (fun handle member => known_iff.1 (movable.known handle member)) movable.apart movable.distinct
    rw [List.length_take, Nat.min_eq_left room] at ended
    obtain ⟨regrouped, _⟩ := ended.of_done ran
    have lists : after.children container =
        (cleared.children container).take index ++ new ++ (cleared.children container).drop index := by
      rw [Document.children, regrouped.items, if_pos rfl, found]
      rfl
    refine ⟨after, ran, fun handle => ?_, by rw [lists, takenOut.children], fun parent elsewhere => ?_,
      (forest.takenOut takenOut).putIn movable putIn⟩
    · rw [putIn.parents, takenOut.parents]
      by_cases isNew : handle ∈ new <;> simp [isNew]
    · have loose : (cleared.children parent).filter (· ∉ new) = cleared.children parent := (out.children parent).symm
      rw [putIn.others parent elsewhere, loose, takenOut.children, replaceable.filter_elsewhere forest elsewhere]

theorem exists_of_idxOf? {handles : List Handle} {handle : Handle} {index : Nat} (found : handles.idxOf? handle = some index) :
    ∃ front back, handles = front ++ handle :: back ∧ front.length = index ∧ handle ∉ front := by
  have member : handle ∈ handles := by
    rw [← List.isSome_idxOf?, found]
    rfl
  obtain ⟨front, back, rfl, fresh⟩ := List.eq_append_cons_of_mem member
  rw [idxOf?_append_cons fresh] at found
  exact ⟨front, back, rfl, Option.some.inj found, fresh⟩

/-- A block that is in no part of a list stands at one place of it only. -/
theorem length_eq_of_block {start stop other behind : List Handle} (some : new ≠ []) (distinct : new.Nodup)
    (apart : ∀ handle ∈ new, handle ∉ start ++ stop) (apartOther : ∀ handle ∈ new, handle ∉ other ++ behind)
    (same : start ++ new ++ stop = other ++ new ++ behind) : start.length = other.length := by
  obtain ⟨head, tail, rfl⟩ := List.exists_cons_of_ne_nil some
  have index (front back : List Handle) (fresh : head ∉ front) :
      (front ++ (head :: tail) ++ back).idxOf? head = .some front.length := by
    rw [List.append_assoc]
    exact idxOf?_append_cons fresh
  have isFirst := index start stop fun member => apart head (List.mem_cons_self ..) (List.mem_append_left _ member)
  have isOther := index other behind fun member => apartOther head (List.mem_cons_self ..) (List.mem_append_left _ member)
  rw [same, isOther] at isFirst
  exact (Option.some.inj isFirst).symm

/-- The new handles are in the place of the first of the old ones exactly if no other stood in front. -/
theorem inPlace_iff (distinct : new.Nodup) (apart : ∀ handle ∈ new, handle ∉ front ++ back) (fresh : first ∉ front)
    (room : new = [] ∨ front.length ≤ (front.filter (· ∉ first :: rest) ++ back.filter (· ∉ first :: rest)).length) :
    (front.filter (· ∉ first :: rest) ++ back.filter (· ∉ first :: rest)).take front.length ++ new ++
        (front.filter (· ∉ first :: rest) ++ back.filter (· ∉ first :: rest)).drop front.length =
      front.filter (· ∉ first :: rest) ++ new ++ back.filter (· ∉ first :: rest) ↔
    new = [] ∨ ∀ handle ∈ rest, handle ∉ front := by
  constructor
  · intro same
    refine Decidable.or_iff_not_imp_left.2 fun some handle isOld inFront => ?_
    have apartKept : ∀ handle ∈ new, handle ∉ front.filter (· ∉ first :: rest) ++ back.filter (· ∉ first :: rest) := by
      intro handle isNew member
      rw [← List.filter_append] at member
      exact apart handle isNew (List.mem_filter.1 member).1
    have place := length_eq_of_block some distinct (by rwa [List.take_append_drop]) apartKept same
    rw [List.length_take, Nat.min_eq_left (room.resolve_left some)] at place
    have stays := (List.length_filter_eq_length_iff.1 place.symm) handle inFront
    simp [isOld] at stays
  · rintro (rfl | clear)
    · rw [List.append_nil, List.append_nil, List.take_append_drop]
    · have kept : front.filter (· ∉ first :: rest) = front := by
        refine List.filter_eq_self.2 fun handle member => ?_
        have notFirst : handle ≠ first := fun same => fresh (same ▸ member)
        have notOld : handle ∉ rest := fun isOld => clear handle isOld member
        simp [notFirst, notOld]
      rw [kept, List.take_left, List.drop_left]

/-- A replacement puts the new handles where the first of the old ones stands if none of the others
stands in front of it. Otherwise it puts them further behind, as many places as there are old ones in
front, or breaks off when there is no such place. -/
theorem replace_spec (forest : document.Forest) (replaceable : document.Replaceable container new (first :: rest)) :
    ∃ front back, (document.children container).filter (· ∉ new) = front ++ first :: back ∧
      (new = [] ∨ front.length ≤ ((front ++ back).filter (· ∉ first :: rest)).length →
        ∃ after, (replace container new (first :: rest)).run document = (.done (), after) ∧
          Replaced document after container new (first :: rest) front.length ∧
          (after.children container =
              front.filter (· ∉ first :: rest) ++ new ++ back.filter (· ∉ first :: rest) ↔
            new = [] ∨ ∀ handle ∈ rest, handle ∉ front)) ∧
      (new ≠ [] → ((front ++ back).filter (· ∉ first :: rest)).length < front.length →
        ∃ after, (replace container new (first :: rest)).run document =
          (.panicked (.insertionIndex front.length ((front ++ back).filter (· ∉ first :: rest)).length), after)) := by
  obtain ⟨index, cleared, found, takenOut, ran⟩ := replaceable.run_replace forest
  obtain ⟨front, back, split, rfl, fresh⟩ := exists_of_idxOf? found
  have kept : cleared.children container = (front ++ back).filter (· ∉ first :: rest) := by
    have : (document.children container).filter (· ∉ new ++ first :: rest) =
        ((document.children container).filter (· ∉ new)).filter (· ∉ first :: rest) := by
      rw [List.filter_filter]
      refine List.filter_congr fun child _ => ?_
      by_cases isNew : child ∈ new <;> simp [isNew]
    rw [takenOut.children, this, split, List.filter_append, List.filter_append, List.filter_cons_of_neg (by simp)]
  refine ⟨front, back, split, fun room => ?_, fun some beyond => ?_⟩
  · obtain ⟨after, inserted, replaced⟩ := replaceable.run_insertAt forest takenOut (kept ▸ room)
    refine ⟨after.note (.replace container new (first :: rest)), ?_, replaced.note _, ?_⟩
    · rw [ran, run_bind_of_done inserted]
      rfl
    · have lists : (after.note (.replace container new (first :: rest))).children container =
          ((front ++ back).filter (· ∉ first :: rest)).take front.length ++ new ++
            ((front ++ back).filter (· ∉ first :: rest)).drop front.length := by
        rw [← kept, takenOut.children]
        exact replaced.children
      rw [lists, List.filter_append]
      refine inPlace_iff replaceable.movable.distinct (fun handle isNew member => ?_) fresh ?_
      · have : handle ∈ (document.children container).filter (· ∉ new) := by
          rw [split]
          exact (List.mem_append.1 member).elim (List.mem_append_left _) fun inBack =>
            List.mem_append_right _ (List.mem_cons_of_mem _ inBack)
        exact absurd isNew (by simpa using (List.mem_filter.1 this).2)
      · rwa [← List.filter_append]
  · obtain ⟨handle, others, rfl⟩ := List.exists_cons_of_ne_nil some
    have movable := replaceable.movable.takenOut takenOut
    have known := movable.known handle (List.mem_cons_self ..)
    have apart : container ≠ handle := fun same => movable.apart (same ▸ List.mem_cons_self ..)
    rw [← kept] at beyond ⊢
    exact ⟨_, ran.trans (run_bind_of_panicked (run_insertAt_beyond movable.home known apart beyond))⟩

/-- Four items, of which three stand on a root. -/
def tray : Document Unit :=
  [Call.createRoot "div", .create "a", .create "b", .create "c", .create "d", .mount [1, 2, 3] 0 none].foldl
    (fun document call => (call.perform.run document).2) {}

theorem replace_spec_tray : tray.Forest ∧ tray.Replaceable 0 [4] [2, 1] ∧
    ∃ after, (replace 0 [4] [2, 1]).run tray = (.done (), after) ∧ after.children 0 = [3, 4] ∧ after.children 0 ≠ [4, 3] := by
  have created : Reached ([Call.createRoot "div", .create "a", .create "b", .create "c", .create "d"].foldl
      (fun document call => (call.perform.run document).2) ({} : Document Unit)) :=
    (((((Reached.empty {} rfl).call (.createRoot "div") trivial).call (.create "a") trivial).call (.create "b") trivial).call
      (.create "c") trivial).call (.create "d") trivial
  have filled : Reached tray :=
    created.call (.mount [1, 2, 3] 0 none) (movable_of_top (by decide) rfl (by decide) (by decide) (by decide))
  have replaceable : tray.Replaceable 0 [4] [2, 1] :=
    ⟨movable_of_top (by decide) rfl (by decide) (by decide) (by decide), by decide, by decide, by decide⟩
  obtain ⟨front, back, split, inPlace, _⟩ := replace_spec filled.forest replaceable
  have isSplit : [1, 2, 3] = front ++ 2 :: back := split
  obtain ⟨rfl, rfl⟩ : front = [1] ∧ back = [3] := by
    match front with
    | [] => simp at isSplit
    | [one] => simpa [eq_comm] using isSplit
    | one :: two :: [] => simp at isSplit
    | one :: two :: three :: others => simp at isSplit
  obtain ⟨after, ran, replaced, isInPlace⟩ := inPlace (.inr (by decide))
  have lists : after.children 0 = [3, 4] := replaced.children
  exact ⟨filled.forest, replaceable, after, ran, lists, fun same => absurd (isInPlace.1 same) (by decide)⟩

end ReactiveMarkup.Document
