import ReactiveMarkup.Loading.Module

/-! Whether code is accepted depends on the names that its planner knows, and not on the numbers that
components happen to have. -/

namespace ReactiveMarkup.Planner

/-- Planners that know the same constructors and elements, and components under the same names. -/
structure Alike (planner other : Planner) : Prop where
  runtimeModule : other.runtimeModule = planner.runtimeModule
  constructors : other.constructors = planner.constructors
  elements : other.elements = planner.elements
  components : ∀ name, (Entries.get? other.components name).isSome = (Entries.get? planner.components name).isSome
  slots : other.slots = planner.slots

/-- Something comes of it. -/
def Accepted {ε α : Type} (result : Except ε α) : Prop := ∃ value, result = .ok value

variable {ε α β : Type}

theorem accepted_bind {result : Except ε α} {next : α → Except ε β} :
    Accepted (result >>= next) ↔ ∃ value, result = .ok value ∧ Accepted (next value) := by
  cases result with
  | error problem => exact ⟨fun ⟨_, done⟩ => (nomatch done), fun ⟨_, done, _⟩ => (nomatch done)⟩
  | ok value =>
    constructor
    · intro accepted
      exact ⟨value, rfl, accepted⟩
    · intro ⟨_, done, accepted⟩
      cases done
      exact accepted

/-- One step after another, each accepted because another one is. -/
theorem Accepted.bind {γ δ : Type} {first : Except ε α} {second : Except ε γ} {next : α → Except ε β} {further : γ → Except ε δ}
    (accepted : Accepted (first >>= next)) (begin : Accepted first → Accepted second)
    (follow : ∀ value found, first = .ok value → second = .ok found → Accepted (next value) → Accepted (further found)) :
    Accepted (second >>= further) := by
  obtain ⟨value, isFirst, rest⟩ := accepted_bind.1 accepted
  obtain ⟨found, isSecond⟩ := begin ⟨value, isFirst⟩
  exact accepted_bind.2 ⟨found, isSecond, follow value found isFirst isSecond rest⟩

variable {planner other : Planner}

theorem require_alike (alike : Alike planner other) (constructor : Constructor) :
    other.require constructor = planner.require constructor := by
  rw [require, require, alike.constructors, alike.runtimeModule]

theorem elementTag_alike (alike : Alike planner other) (code : Code) : other.elementTag code = planner.elementTag code := by
  unfold elementTag
  simp only [require_alike alike]

theorem planSlot_alike (alike : Alike planner other) (name : String) (arguments : List Code) :
    other.planSlot name arguments = planner.planSlot name arguments := by
  unfold planSlot
  rw [alike.slots]

mutual

/-- Only what is planned depends on the numbers of components, not whether anything is. -/
theorem planNode_alike (alike : Alike planner other) (code : Code) (accepted : Accepted (planner.planNode code)) :
    Accepted (other.planNode code) := by
  cases code with
  | call callee arguments =>
    cases callee with
    | identifier name =>
      rw [planNode, alike.elements]
      rw [planNode] at accepted
      have known := alike.components name
      cases element : Entries.get? planner.elements name with
      | some tag =>
        rw [element] at accepted
        exact planElement_alike alike tag arguments accepted
      | none =>
        rw [element] at accepted
        generalize Entries.get? planner.components name = mine at known accepted
        generalize Entries.get? other.components name = theirs at known
        cases mine <;> cases theirs <;> cases known
        · simp only [require_alike alike]
          dsimp only at accepted
          split at accepted
          · exact accepted
          · exact accepted.bind id fun _ _ _ _ => planConditional_alike alike arguments
          · exact accepted.bind id fun _ _ _ _ => planLoop_alike alike arguments
          · exact accepted.bind id fun _ _ _ _ accepted =>
              accepted.bind (planNodes_alike alike arguments) fun _ _ _ _ _ => ⟨_, rfl⟩
          all_goals exact accepted
        · exact planComponent_alike alike arguments accepted
    | call callee parameters =>
      rw [planNode] at accepted ⊢
      rw [elementTag_alike alike]
      refine accepted.bind id fun tag found isTag isFound accepted => ?_
      cases isTag.symm.trans isFound
      exact planElement_alike alike tag arguments accepted
    | index receiver key =>
      cases receiver with
      | identifier name =>
        unfold planNode at accepted ⊢
        simpa only [planSlot_alike alike] using accepted
      | _ => exact nomatch accepted
    | _ => exact nomatch accepted
  | _ => exact nomatch accepted

theorem planNodes_alike (alike : Alike planner other) (codes : List Code) (accepted : Accepted (planner.planNodes codes)) :
    Accepted (other.planNodes codes) := by
  cases codes with
  | nil => exact ⟨_, rfl⟩
  | cons code rest =>
    exact accepted.bind (planNode_alike alike code) fun _ _ _ _ accepted =>
      accepted.bind (planNodes_alike alike rest) fun _ _ _ _ _ => ⟨_, rfl⟩

theorem planElement_alike (alike : Alike planner other) (tag : String) (arguments : List Code)
    (accepted : Accepted (planner.planElement tag arguments)) : Accepted (other.planElement tag arguments) := by
  cases arguments with
  | nil => exact ⟨_, rfl⟩
  | cons first more =>
    cases first <;> cases more
    case object.nil input => exact accepted.bind (planElementParts_alike alike input) fun _ _ _ _ _ => ⟨_, rfl⟩
    all_goals exact nomatch accepted

theorem planElementParts_alike (alike : Alike planner other) {parts begun : ElementParts} (input : List (String × Code))
    (accepted : Accepted (planner.planElementParts parts input)) : Accepted (other.planElementParts begun input) := by
  cases input with
  | nil => exact ⟨_, rfl⟩
  | cons entry rest =>
    obtain ⟨key, code⟩ := entry
    have follow {parts begun : ElementParts} (accepted : Accepted (planner.planElementParts parts rest)) :
        Accepted (other.planElementParts begun rest) := planElementParts_alike alike rest accepted
    rw [planElementParts] at accepted ⊢
    by_cases attrs : key = "attrs"
    · rw [if_pos attrs] at accepted ⊢
      exact accepted.bind id fun _ _ _ _ => follow
    by_cases props : key = "props"
    · rw [if_neg attrs, if_pos props] at accepted ⊢
      exact accepted.bind id fun _ _ _ _ => follow
    by_cases events : key = "events"
    · rw [if_neg attrs, if_neg props, if_pos events] at accepted ⊢
      exact accepted.bind id fun _ _ _ _ => follow
    rw [if_neg attrs, if_neg props, if_neg events] at accepted ⊢
    by_cases child : key = "child"
    · rw [if_pos child] at accepted ⊢
      exact accepted.bind (planNode_alike alike code) fun _ _ _ _ => follow
    · rw [if_neg child] at accepted
      exact nomatch accepted

theorem planConditional_alike (alike : Alike planner other) (arguments : List Code)
    (accepted : Accepted (planner.planConditional arguments)) : Accepted (other.planConditional arguments) := by
  cases arguments with
  | nil => exact nomatch accepted
  | cons first more =>
    cases first <;> cases more
    case object.nil options => exact accepted.bind (planConditionalParts_alike alike options) fun _ _ _ _ _ => ⟨_, rfl⟩
    all_goals exact nomatch accepted

theorem planConditionalParts_alike (alike : Alike planner other) {parts begun : ConditionalParts} (options : List (String × Code))
    (accepted : Accepted (planner.planConditionalParts parts options)) : Accepted (other.planConditionalParts begun options) := by
  cases options with
  | nil => exact ⟨_, rfl⟩
  | cons entry rest =>
    obtain ⟨key, code⟩ := entry
    have follow {parts begun : ConditionalParts} (accepted : Accepted (planner.planConditionalParts parts rest)) :
        Accepted (other.planConditionalParts begun rest) := planConditionalParts_alike alike rest accepted
    rw [planConditionalParts] at accepted ⊢
    by_cases ifs : key = "ifs"
    · rw [if_pos ifs] at accepted ⊢
      exact accepted.bind (planBranches_alike alike code) fun _ _ _ _ => follow
    rw [if_neg ifs] at accepted ⊢
    by_cases otherwise : key = "otherwise"
    · rw [if_pos otherwise] at accepted ⊢
      exact accepted.bind (planNode_alike alike code) fun _ _ _ _ => follow
    · rw [if_neg otherwise] at accepted
      exact nomatch accepted

theorem planBranches_alike (alike : Alike planner other) (code : Code) (accepted : Accepted (planner.planBranches code)) :
    Accepted (other.planBranches code) := by
  cases code with
  | array branches => exact planBranchList_alike alike branches accepted
  | _ => exact nomatch accepted

theorem planBranchList_alike (alike : Alike planner other) (branches : List Code)
    (accepted : Accepted (planner.planBranchList branches)) : Accepted (other.planBranchList branches) := by
  cases branches with
  | nil => exact ⟨_, rfl⟩
  | cons branch rest =>
    exact accepted.bind (planBranch_alike alike branch) fun _ _ _ _ accepted =>
      accepted.bind (planBranchList_alike alike rest) fun _ _ _ _ _ => ⟨_, rfl⟩

theorem planBranch_alike (alike : Alike planner other) (branch : Code) (accepted : Accepted (planner.planBranch branch)) :
    Accepted (other.planBranch branch) := by
  cases branch with
  | array parts =>
    obtain _ | ⟨test, _ | ⟨node, _ | _⟩⟩ := parts
    case cons.cons.nil =>
      cases test with
      | arrow params test =>
        cases params with
        | nil =>
          rw [planBranch] at accepted ⊢
          by_cases null : node.isNull
          · rw [if_pos null] at accepted ⊢
            exact accepted
          · rw [if_neg null] at accepted ⊢
            exact accepted.bind (planNode_alike alike node) fun _ _ _ _ accepted => accepted.bind id fun _ _ _ _ _ => ⟨_, rfl⟩
        | cons => exact nomatch accepted
      | _ => exact nomatch accepted
    case nil => exact nomatch accepted
    all_goals
      cases test with
      | arrow params _ => cases params <;> exact nomatch accepted
      | _ => exact nomatch accepted
  | _ => exact nomatch accepted

theorem planLoop_alike (alike : Alike planner other) (arguments : List Code) (accepted : Accepted (planner.planLoop arguments)) :
    Accepted (other.planLoop arguments) := by
  cases arguments with
  | nil => exact nomatch accepted
  | cons first more =>
    cases more with
    | nil => cases first <;> exact nomatch accepted
    | cons body more =>
      cases first <;> cases more
      case object.nil options =>
        obtain ⟨parts, areParts, accepted⟩ := accepted_bind.1 accepted
        obtain ⟨found, areFound, items, track⟩ := planLoopParts_alike alike {} options areParts rfl rfl
        refine accepted_bind.2 ⟨found, areFound, ?_⟩
        rw [items, track]
        generalize parts.items = isItems at accepted
        generalize parts.track = isTrack at accepted
        cases isItems <;> cases isTrack
        case some.some => exact accepted.bind (planItemNode_alike alike body) fun _ _ _ _ _ => ⟨_, rfl⟩
        all_goals exact accepted
      all_goals exact nomatch accepted

/-- The items and the tracker do not depend on components at all. -/
theorem planLoopParts_alike (alike : Alike planner other) {parts planned : LoopParts} (begun : LoopParts) (options : List (String × Code))
    (done : planner.planLoopParts parts options = .ok planned) (items : begun.items = parts.items) (track : begun.track = parts.track) :
    ∃ found, other.planLoopParts begun options = .ok found ∧ found.items = planned.items ∧ found.track = planned.track := by
  cases options with
  | nil =>
    cases done
    exact ⟨begun, rfl, items, track⟩
  | cons entry rest =>
    obtain ⟨key, code⟩ := entry
    rw [planLoopParts] at done ⊢
    by_cases isItems : key = "items"
    · rw [if_pos isItems] at done ⊢
      cases thunk : planThunk .itemsThunk code with
      | error fault =>
        rw [thunk] at done
        cases done
      | ok plan =>
        rw [thunk] at done
        exact planLoopParts_alike alike _ rest done rfl track
    by_cases isTrack : key = "trackBy"
    · rw [if_neg isItems, if_pos isTrack] at done ⊢
      cases tracker : planItemValue code with
      | error fault =>
        rw [tracker] at done
        cases done
      | ok plan =>
        rw [tracker] at done
        exact planLoopParts_alike alike _ rest done items rfl
    rw [if_neg isItems, if_neg isTrack] at done ⊢
    by_cases isEmpty : key = "empty"
    · rw [if_pos isEmpty] at done ⊢
      cases mine : planner.planNode code with
      | error fault =>
        rw [mine] at done
        cases done
      | ok plan =>
        rw [mine] at done
        obtain ⟨empty, isEmpty⟩ := planNode_alike alike code ⟨plan, mine⟩
        rw [isEmpty]
        exact planLoopParts_alike alike _ rest done items track
    · rw [if_neg isEmpty] at done
      cases done

theorem planItemNode_alike (alike : Alike planner other) (code : Code) (accepted : Accepted (planner.planItemNode code)) :
    Accepted (other.planItemNode code) := by
  cases code with
  | arrow params body =>
    match params, accepted with
    | [.name _], accepted => exact accepted.bind (planNode_alike alike body) fun _ _ _ _ _ => ⟨_, rfl⟩
    | [], accepted | [.pattern _], accepted | .name _ :: _ :: _, accepted | .pattern _ :: _ :: _, accepted => exact nomatch accepted
  | _ => exact nomatch accepted

theorem planComponent_alike (alike : Alike planner other) {id number : Nat} {name title : String} (arguments : List Code)
    (accepted : Accepted (planner.planComponent id name arguments)) : Accepted (other.planComponent number title arguments) := by
  cases arguments with
  | nil => exact ⟨_, rfl⟩
  | cons first more =>
    cases first <;> cases more
    case object.nil input => exact accepted.bind (planComponentParts_alike alike input) fun _ _ _ _ _ => ⟨_, rfl⟩
    all_goals exact nomatch accepted

theorem planComponentParts_alike (alike : Alike planner other) {parts begun : ComponentParts} (input : List (String × Code))
    (accepted : Accepted (planner.planComponentParts parts input)) : Accepted (other.planComponentParts begun input) := by
  cases input with
  | nil => exact ⟨_, rfl⟩
  | cons entry rest =>
    obtain ⟨key, code⟩ := entry
    have follow {parts begun : ComponentParts} (accepted : Accepted (planner.planComponentParts parts rest)) :
        Accepted (other.planComponentParts begun rest) := planComponentParts_alike alike rest accepted
    rw [planComponentParts] at accepted ⊢
    by_cases props : key = "props"
    · rw [if_pos props] at accepted ⊢
      exact accepted.bind id fun _ _ _ _ => follow
    by_cases events : key = "events"
    · rw [if_neg props, if_pos events] at accepted ⊢
      exact accepted.bind id fun _ _ _ _ => follow
    rw [if_neg props, if_neg events] at accepted ⊢
    by_cases slots : key = "slots"
    · rw [if_pos slots] at accepted ⊢
      exact accepted.bind (planSlotContents_alike alike code) fun _ _ _ _ => follow
    · rw [if_neg slots] at accepted
      exact nomatch accepted

theorem planSlotContents_alike (alike : Alike planner other) (code : Code) (accepted : Accepted (planner.planSlotContents code)) :
    Accepted (other.planSlotContents code) := by
  cases code with
  | object properties => exact planSlotEntries_alike alike properties accepted
  | _ => exact nomatch accepted

theorem planSlotEntries_alike (alike : Alike planner other) (entries : List (String × Code))
    (accepted : Accepted (planner.planSlotEntries entries)) : Accepted (other.planSlotEntries entries) := by
  cases entries with
  | nil => exact ⟨_, rfl⟩
  | cons entry rest =>
    obtain ⟨_, code⟩ := entry
    exact accepted.bind (planSlotContent_alike alike code) fun _ _ _ _ accepted =>
      accepted.bind (planSlotEntries_alike alike rest) fun _ _ _ _ _ => ⟨_, rfl⟩

theorem planSlotContent_alike (alike : Alike planner other) (code : Code) (accepted : Accepted (planner.planSlotContent code)) :
    Accepted (other.planSlotContent code) := by
  cases code with
  | arrow params body =>
    match params, accepted with
    | [], accepted | [.pattern _], accepted => exact accepted.bind (planNode_alike alike body) fun _ _ _ _ _ => ⟨_, rfl⟩
    | [.name _], accepted | .name _ :: _ :: _, accepted | .pattern _ :: _ :: _, accepted => exact nomatch accepted
  | _ => exact nomatch accepted

end

end ReactiveMarkup.Planner
