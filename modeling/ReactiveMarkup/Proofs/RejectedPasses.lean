import ReactiveMarkup.Proofs.KeyedLists

/-! A pass over a list whose items do not have distinct keys is rejected. The keys are looked at
before anything is done to the items, but after the node for an empty list has been taken down. -/

namespace ReactiveMarkup.Machine

open ReactiveMarkup.Step

variable {host : Host} {calls : Calls host} {id : NodeId} {target : Handle} {machine read : Machine host}

/-- A key, at the place where it comes for the second time and no key before it has. -/
def FirstRepeated (keys : List String) (key : String) : Prop :=
  ∃ front back, keys = front ++ key :: back ∧ key ∈ front ∧ front.Nodup

theorem firstRepeated?_of_repeated {seen keys : List String} (distinct : seen.Nodup) (repeated : ¬ (seen ++ keys).Nodup) :
    ∃ key, firstRepeated? seen keys = some key ∧
      ∃ front back, keys = front ++ key :: back ∧ key ∈ seen ++ front ∧ (seen ++ front).Nodup := by
  induction keys generalizing seen with
  | nil => exact absurd (by simpa using distinct) repeated
  | cons key rest ih =>
    by_cases known : key ∈ seen
    · have again : seen.contains key = true := List.contains_iff_mem.2 known
      refine ⟨key, by rw [firstRepeated?, if_pos again], [], rest, rfl, ?_, ?_⟩
      · simpa using known
      · simpa using distinct
    · have unseen : ¬ seen.contains key = true := fun again => known (List.contains_iff_mem.1 again)
      have distinctMore : (key :: seen).Nodup := List.nodup_cons.2 ⟨known, distinct⟩
      have repeatedMore : ¬ ((key :: seen) ++ rest).Nodup := fun apart => repeated ((List.perm_middle.nodup_iff).2 apart)
      obtain ⟨other, found, front, back, same, member, apart⟩ := ih distinctMore repeatedMore
      refine ⟨other, by rw [firstRepeated?, if_neg unseen, found], key :: front, back, by rw [same]; rfl, ?_, ?_⟩
      · simp only [List.cons_append, List.mem_cons, List.mem_append] at member ⊢
        exact or_left_comm.1 member
      · exact (List.perm_middle.nodup_iff).2 apart

theorem exists_firstRepeated {keys : List String} (repeated : ¬ keys.Nodup) :
    ∃ key, firstRepeated? [] keys = some key ∧ FirstRepeated keys key := by
  obtain ⟨key, found, front, back, same, member, distinct⟩ := firstRepeated?_of_repeated .nil repeated
  exact ⟨key, found, front, back, same, by simpa using member, by simpa using distinct⟩

theorem run_list? {list : ListNode host.Code} (found : machine.nodes[id]? = some (.list list)) :
    (list? id).run machine = (.done (some list), machine) := by
  have isNode : (node? id).run machine = (.done machine.nodes[id]?, machine) := rfl
  rw [list?, run_bind_of_done isNode, found]
  rfl

theorem run_modifyList {list : ListNode host.Code} (found : machine.nodes[id]? = some (.list list))
    (f : ListNode host.Code → ListNode host.Code) :
    (modifyList id f).run machine = (.done (), { machine with nodes := machine.nodes.set! id (.list (f list)) }) := by
  rw [modifyList, run_bind_of_done (run_list? found)]
  rfl

/-- A step that nobody observes, when it panics. -/
theorem run_untrack_of_panicked {α : Type} {step : Run host α} {after : Machine host} {cause : Panic}
    (panicked : step.run { machine with graph := { machine.graph with observer := none } } = (.panicked cause, after)) :
    (untrack step).run machine =
      (.panicked cause, { after with graph := { after.graph with observer := machine.graph.observer } }) := by
  change (step.after fun _ after => { after with graph := { after.graph with observer := machine.graph.observer } })
    { machine with graph := { machine.graph with observer := none } } = _
  rw [Step.after, show step _ = _ from panicked]

section

variable {list : ListNode host.Code} {items : List Value} {keys : List String} {key : String}

/-- With a key twice, a pass has items. -/
theorem reconcile_of_items (found : machine.nodes[id]? = some (.list list)) (filled : items ≠ []) :
    (reconcile calls id target items keys).run machine =
      (do hideEmpty calls id target; showItems calls id target items keys : Run host Unit).run machine := by
  rw [reconcile, run_bind_of_done (run_list? found)]
  cases items with
  | nil => exact absurd rfl filled
  | cons => rfl

/-- Where items are shown, a pass is rejected before it does anything. -/
theorem reconcile_rejected (found : machine.nodes[id]? = some (.list list)) (hidden : list.emptyMounted = false)
    (filled : items ≠ []) (again : firstRepeated? [] keys = some key) :
    (reconcile calls id target items keys).run machine = (.panicked (.duplicateKey key), machine) := by
  have nothing : (hideEmpty calls id target).run machine = (.done (), machine) := by
    rw [hideEmpty, run_bind_of_done (run_list? found)]
    dsimp only
    rw [hidden]
    rfl
  rw [reconcile_of_items found filled, run_bind_of_done nothing, showItems, again]
  rfl

/-- Where the node for an empty list is shown, that is taken down first. -/
theorem reconcile_rejected_empty {empty : NodeId} {gone : Machine host} {later : ListNode host.Code}
    (found : machine.nodes[id]? = some (.list list)) (shown : list.emptyMounted = true) (isEmpty : list.empty = some empty)
    (unmounts : (calls.unmount empty target).run machine = (.done (), gone)) (foundLater : gone.nodes[id]? = some (.list later))
    (filled : items ≠ []) (again : firstRepeated? [] keys = some key) :
    (reconcile calls id target items keys).run machine =
      (.panicked (.duplicateKey key), { gone with nodes := gone.nodes.set! id (.list { later with emptyMounted := false }) }) := by
  have all : (list.empty.toList.forM fun empty => calls.unmount empty target : Run host PUnit).run machine = (.done ⟨⟩, gone) := by
    rw [isEmpty]
    exact run_bind_of_done unmounts
  have hides : (hideEmpty calls id target).run machine =
      (.done (), { gone with nodes := gone.nodes.set! id (.list { later with emptyMounted := false }) }) := by
    rw [hideEmpty, run_bind_of_done (run_list? found)]
    dsimp only
    rw [shown]
    exact (run_bind_of_done all).trans (run_modifyList foundLater _)
  rw [reconcile_of_items found filled, run_bind_of_done hides, showItems, again]
  rfl

end

theorem trackItems_nil {tracker : Tracker host.Code} {keys : List String} {after : Machine host}
    (asked : (trackItems calls tracker []).run machine = (.done keys, after)) : keys = [] := by
  cases asked
  rfl

/-- A pass over items with a key twice panics with the first such key. If items are shown, it leaves all
as it was once the items and their keys were read. If the node for an empty list is shown, it leaves all
as taking down that node does, and the list shows neither. -/
theorem refreshItems_rejected {list current : ListNode host.Code} {items : List Value} {keys : List String} {asked : Machine host}
    (found : machine.nodes[id]? = some (.list list)) (readsItems : (readItems calls list.items).run machine = (.done items, asked))
    (readsKeys : (trackItems calls list.tracker items).run asked = (.done keys, read))
    (foundRead : read.nodes[id]? = some (.list current)) (repeated : ¬ keys.Nodup) :
    ∃ key, FirstRepeated keys key ∧
      (current.emptyMounted = false → (refreshItems calls id target).run machine = (.panicked (.duplicateKey key), read)) ∧
      ∀ empty gone later, current.emptyMounted = true → current.empty = some empty →
        (calls.unmount empty target).run { read with graph := { read.graph with observer := none } } = (.done (), gone) →
        gone.nodes[id]? = some (.list later) →
        (refreshItems calls id target).run machine = (.panicked (.duplicateKey key), { gone with
          nodes := gone.nodes.set! id (.list { later with emptyMounted := false })
          graph := { gone.graph with observer := read.graph.observer } }) := by
  obtain ⟨key, again, first⟩ := exists_firstRepeated repeated
  have filled : items ≠ [] := by
    rintro rfl
    exact repeated (trackItems_nil readsKeys ▸ .nil)
  have passes : (refreshItems calls id target).run machine = (untrack (reconcile calls id target items keys)).run read := by
    rw [refreshItems, run_bind_of_done (run_list? found), run_bind_of_done readsItems, run_bind_of_done readsKeys]
  refine ⟨key, first, fun hidden => ?_, fun empty gone later shown isEmpty unmounts foundLater => ?_⟩
  · have rejected : (reconcile calls id target items keys).run { read with graph := { read.graph with observer := none } } =
        (.panicked (.duplicateKey key), { read with graph := { read.graph with observer := none } }) :=
      reconcile_rejected foundRead hidden filled again
    have unobserved := run_untrack_of_panicked rejected
    rw [passes]
    exact unobserved
  · rw [passes]
    exact run_untrack_of_panicked (reconcile_rejected_empty foundRead shown isEmpty unmounts foundLater filled again)

/-- A list of one item whose new items have the same key. -/
def twinList : ListNode journaled.Code where
  items := ⟨.constant (.array 0 [.string "first", .string "second"]), false⟩
  tracker := .host ()
  builder := .host ()
  empty := none
  keys := ["a"]
  entries := [("a", ⟨0, 1⟩)]
  mounted := true

def twinMachine : Machine journaled := { textMachine with nodes := #[.list twinList, shownText 1, shownText 2] }

theorem refreshItems_rejected_twins : ¬ ["undefined", "undefined"].Nodup ∧
    (refreshItems textCalls 0 0).run twinMachine = (.panicked (.duplicateKey "undefined"), twinMachine) := by
  have repeated : ¬ ["undefined", "undefined"].Nodup := by decide
  obtain ⟨key, ⟨front, back, same, member, _⟩, rejected, _⟩ :=
    @refreshItems_rejected _ textCalls 0 0 twinMachine twinMachine twinList twinList _ _ _ rfl rfl rfl rfl repeated
  have isKey : key = "undefined" := by
    have inside : key ∈ ["undefined", "undefined"] := same ▸ List.mem_append_left _ member
    simpa using inside
  exact ⟨repeated, isKey ▸ rejected rfl⟩

end ReactiveMarkup.Machine
