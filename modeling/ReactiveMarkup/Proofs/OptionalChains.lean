import ReactiveMarkup.Interpreter
import ReactiveMarkup.Proofs.StepLogic

/-! Chains of properties, indices and calls in which links may be optional. Once the receiver of an
optional link is nullish, the whole rest of the chain is skipped: nothing of it is looked at, and
nothing else skips a part of a chain. -/

namespace ReactiveMarkup

/-- How a chain goes on. -/
inductive Link where
  | member (property : String)
  | index (key : Expression)
  | call (arguments : List Expression)

/-- A chain with one more link. -/
def Link.on (link : Link) (optional : Bool) (receiver : Expression) : Expression :=
  match link with
  | .member property => .member receiver property optional
  | .index key => .index receiver key optional
  | .call arguments => .call receiver arguments optional

/-- A chain with more links, of which some may be optional. -/
def Expression.chain (receiver : Expression) (links : List (Link × Bool)) : Expression :=
  links.foldl (fun receiver link => link.1.on link.2 receiver) receiver

theorem Expression.chain_append (receiver : Expression) (links : List (Link × Bool)) (link : Link) (optional : Bool) :
    receiver.chain (links ++ [(link, optional)]) = link.on optional (receiver.chain links) := by
  rw [chain, List.foldl_append]
  rfl

/-- A panic without the expression that it quotes. -/
def Panic.unquoted : Panic → Panic
  | .notFunction _ => .notFunction ""
  | .nullishRead receiver key _ => .nullishRead receiver key ""
  | other => other

def Ending.unquoted {α : Type} : Ending α → Ending α
  | .panicked cause => .panicked cause.unquoted
  | other => other

/-- Steps that come to the same from a state, up to the expression that a panic quotes. -/
def Step.Agree {σ α : Type} (step other : Step σ α) (state : σ) : Prop :=
  (step.run state).1.unquoted = (other.run state).1.unquoted ∧ (step.run state).2 = (other.run state).2

namespace Step

variable {σ α β : Type} {state : σ}

theorem Agree.refl (step : Step σ α) (state : σ) : Agree step step state := ⟨rfl, rfl⟩

theorem agree_panic {cause other : Panic} (same : cause.unquoted = other.unquoted) :
    Agree (Step.panic cause : Step σ α) (Step.panic other) state :=
  ⟨congrArg Ending.panicked same, rfl⟩

theorem Agree.bind {step other : Step σ α} {next later : α → Step σ β} (first : Agree step other state)
    (rest : ∀ value after, Agree (next value) (later value) after) : Agree (step >>= next) (other >>= later) state := by
  cases ran : step.run state with
  | mk ending after =>
    cases ranOther : other.run state with
    | mk endingOther afterOther =>
      rw [Agree, ran, ranOther] at first
      obtain ⟨same, rfl⟩ := first
      cases ending with
      | done value =>
        cases endingOther <;> cases same
        rw [Agree, run_bind_of_done ran, run_bind_of_done ranOther]
        exact rest value after
      | panicked cause =>
        cases endingOther with
        | panicked causeOther =>
          rw [Agree, run_bind_of_panicked ran, run_bind_of_panicked ranOther]
          exact ⟨congrArg Ending.panicked (Ending.panicked.inj same), rfl⟩
        | _ => cases same
      | exhausted =>
        cases endingOther <;> cases same
        rw [Agree, run_bind_of_exhausted ran, run_bind_of_exhausted ranOther]
        exact ⟨rfl, rfl⟩

end Step

namespace Machine

variable {host : Host} {calls : Calls host} {scope : Scope} {machine after : Machine host}

/-! One link of a chain. -/

/-- What a link does with the value of its receiver. -/
def follow (calls : Calls host) (scope : Scope) (receiver : Expression) (value : Value) : Link → Run host Value
  | .member property => readMember value property receiver
  | .index key => do
    let key ← evaluate calls scope key
    readMember value key.key receiver
  | .call arguments => do
    let arguments ← evaluateAll calls scope arguments
    applyValue calls value arguments receiver

/-- A link behind what came of its receiver. Behind a chain that was cut short it is skipped. -/
def proceed (calls : Calls host) (scope : Scope) (receiver : Expression) (link : Link) (optional : Bool) :
    Option Value → Run host (Option Value)
  | none => return none
  | some value => if optional && value.isNullish then return none else return some (← follow calls scope receiver value link)

theorem evaluateLink_on (calls : Calls host) (scope : Scope) (link : Link) (optional : Bool) (receiver : Expression) :
    evaluateLink calls scope (link.on optional receiver) =
      evaluateLink calls scope receiver >>= proceed calls scope receiver link optional := by
  cases link with
  | member property =>
    rw [Link.on, evaluateLink]
    refine bind_congr fun found => ?_
    cases found with
    | none => rfl
    | some value =>
      rw [proceed]
      dsimp only
      split <;> rfl
  | index key =>
    rw [Link.on, evaluateLink]
    refine bind_congr fun found => ?_
    cases found with
    | none => rfl
    | some value =>
      rw [proceed]
      dsimp only
      split
      · rfl
      · simp only [follow, evaluate, bind_assoc, pure_bind]
  | call arguments =>
    rw [Link.on, evaluateLink]
    refine bind_congr fun found => ?_
    cases found with
    | none => rfl
    | some value =>
      rw [proceed]
      dsimp only
      split
      · rfl
      · simp only [follow, bind_assoc]

theorem agree_readMember (value : Value) (key : String) (receiver other : Expression) (machine : Machine host) :
    Step.Agree (readMember value key receiver) (readMember value key other) machine := by
  rw [readMember, readMember]
  split
  · exact Step.agree_panic rfl
  · exact .refl _ _

theorem agree_applyValue (calls : Calls host) (function : Value) (arguments : List Value) (callee other : Expression)
    (machine : Machine host) :
    Step.Agree (applyValue calls function arguments callee) (applyValue calls function arguments other) machine := by
  cases function with
  | function id => exact .refl _ _
  | _ => exact Step.agree_panic rfl

/-- A link looks at the value of its receiver only. How the receiver is written is only quoted. -/
theorem agree_follow (calls : Calls host) (scope : Scope) (receiver other : Expression) (value : Value) (link : Link)
    (machine : Machine host) :
    Step.Agree (follow calls scope receiver value link) (follow calls scope other value link) machine := by
  cases link with
  | member property => exact agree_readMember value property receiver other machine
  | index key => exact .bind (.refl _ _) fun key after => agree_readMember value key.key receiver other after
  | call arguments => exact .bind (.refl _ _) fun arguments after => agree_applyValue calls value arguments receiver other after

theorem agree_proceed (calls : Calls host) (scope : Scope) (receiver other : Expression) (link : Link) (optional : Bool)
    (found : Option Value) (machine : Machine host) :
    Step.Agree (proceed calls scope receiver link optional found) (proceed calls scope other link optional found) machine := by
  cases found with
  | none => exact .refl _ _
  | some value =>
    rw [proceed, proceed]
    split
    · exact .refl _ _
    · exact .bind (agree_follow calls scope receiver other value link machine) fun _ _ => .refl _ _

/-! Chains of any length. -/

/-- A chain that was cut short before stays so, and the links behind do nothing. -/
theorem evaluateLink_chain_none {receiver : Expression} (ran : (evaluateLink calls scope receiver).run machine = (.done none, after))
    (links : List (Link × Bool)) :
    (evaluateLink calls scope (receiver.chain links)).run machine = (.done none, after) := by
  induction links generalizing receiver with
  | nil => exact ran
  | cons first rest ih =>
    have skipped : (evaluateLink calls scope (first.1.on first.2 receiver)).run machine = (.done none, after) := by
      rw [evaluateLink_on, Step.run_bind_of_done ran]
      rfl
    exact ih skipped

/-- Chains that begin alike go on alike. -/
theorem agree_chain {receiver other : Expression}
    (agree : Step.Agree (evaluateLink calls scope receiver) (evaluateLink calls scope other) machine) (links : List (Link × Bool)) :
    Step.Agree (evaluateLink calls scope (receiver.chain links)) (evaluateLink calls scope (other.chain links)) machine := by
  induction links generalizing receiver other with
  | nil => exact agree
  | cons first rest ih =>
    have goesOn : Step.Agree (evaluateLink calls scope (first.1.on first.2 receiver))
        (evaluateLink calls scope (first.1.on first.2 other)) machine := by
      rw [evaluateLink_on, evaluateLink_on]
      exact agree.bind fun found after => agree_proceed calls scope receiver other first.1 first.2 found after
    exact ih goesOn

/-- A chain is cut short where an optional link meets a nullish receiver. -/
def CutShort (calls : Calls host) (scope : Scope) (expression : Expression) (machine after : Machine host) : Prop :=
  ∃ (receiver : Expression) (link : Link) (later : List (Link × Bool)) (value : Value),
    expression = (link.on true receiver).chain later ∧
      (evaluateLink calls scope receiver).run machine = (.done (some value), after) ∧ value.isNullish = true

theorem CutShort.on {receiver : Expression} (cut : CutShort calls scope receiver machine after) (link : Link) (optional : Bool) :
    CutShort calls scope (link.on optional receiver) machine after := by
  obtain ⟨inner, first, later, value, rfl, ran, nullish⟩ := cut
  exact ⟨inner, first, later ++ [(link, optional)], value, (Expression.chain_append ..).symm, ran, nullish⟩

theorem evaluateLink_of_cutShort {expression : Expression} (cut : CutShort calls scope expression machine after) :
    (evaluateLink calls scope expression).run machine = (.done none, after) := by
  obtain ⟨receiver, link, later, value, rfl, ran, nullish⟩ := cut
  refine evaluateLink_chain_none ?_ later
  rw [evaluateLink_on, Step.run_bind_of_done ran, proceed, nullish]
  rfl

/-- One more link is skipped where the chain so far was cut short, or where it cuts the chain short itself. -/
theorem cutShort_on {receiver : Expression} (link : Link) {optional : Bool}
    (inner : (evaluateLink calls scope receiver).run machine = (.done none, after) → CutShort calls scope receiver machine after)
    (ran : (evaluateLink calls scope (link.on optional receiver)).run machine = (.done none, after)) :
    CutShort calls scope (link.on optional receiver) machine after := by
  rw [evaluateLink_on] at ran
  obtain ⟨found, between, ranReceiver, goesOn⟩ := Step.exists_of_run_bind ran
  cases found with
  | none =>
    obtain rfl : between = after := congrArg Prod.snd goesOn
    exact (inner ranReceiver).on link optional
  | some value =>
    rw [proceed] at goesOn
    split at goesOn
    next skips =>
      obtain ⟨isOptional, nullish⟩ := Bool.and_eq_true_iff.1 skips
      obtain rfl : between = after := congrArg Prod.snd goesOn
      exact ⟨receiver, link, [], value, by rw [isOptional]; rfl, ranReceiver, nullish⟩
    next =>
      obtain ⟨result, last, _, ended⟩ := Step.exists_of_run_bind goesOn
      cases ended

/-- Nothing else leaves a chain without a value, in particular no chain in an index or an argument. -/
theorem cutShort_of_evaluateLink (expression : Expression)
    (ran : (evaluateLink calls scope expression).run machine = (.done none, after)) :
    CutShort calls scope expression machine after := by
  cases expression with
  | member receiver property optional =>
    exact cutShort_on (.member property) (fun ran => cutShort_of_evaluateLink receiver ran) ran
  | index receiver key optional => exact cutShort_on (.index key) (fun ran => cutShort_of_evaluateLink receiver ran) ran
  | call callee arguments optional =>
    exact cutShort_on (.call arguments) (fun ran => cutShort_of_evaluateLink callee ran) ran
  | literal value => rw [evaluateLink] at ran; cases ran
  | this => rw [evaluateLink] at ran; cases ran
  | identifier name =>
    rw [evaluateLink] at ran
    obtain ⟨_, _, _, ended⟩ := Step.exists_of_run_bind ran
    cases ended
  | array elements =>
    rw [evaluateLink] at ran
    obtain ⟨_, _, _, ran⟩ := Step.exists_of_run_bind ran
    obtain ⟨_, _, _, ended⟩ := Step.exists_of_run_bind ran
    cases ended
  | object properties =>
    rw [evaluateLink] at ran
    obtain ⟨_, _, _, ran⟩ := Step.exists_of_run_bind ran
    obtain ⟨_, _, _, ended⟩ := Step.exists_of_run_bind ran
    cases ended
  | unary operator operand =>
    by_cases asks : ∃ name, operator = .typeof ∧ operand = .identifier name
    · obtain ⟨name, rfl, rfl⟩ := asks
      rw [evaluateLink] at ran
      cases ran
    · rw [evaluateLink] at ran
      · obtain ⟨_, _, _, ended⟩ := Step.exists_of_run_bind ran
        cases ended
      · exact fun name isTypeof isName => asks ⟨name, isTypeof, isName⟩
  | binary operator left right =>
    rw [evaluateLink] at ran
    obtain ⟨_, _, _, ran⟩ := Step.exists_of_run_bind ran
    dsimp only at ran
    split at ran
    · cases ran
    · obtain ⟨_, _, _, ended⟩ := Step.exists_of_run_bind ran
      cases ended
  | conditional test consequent alternate =>
    rw [evaluateLink] at ran
    obtain ⟨_, _, _, ran⟩ := Step.exists_of_run_bind ran
    dsimp only at ran
    split at ran
    · obtain ⟨_, _, _, ended⟩ := Step.exists_of_run_bind ran
      cases ended
    · obtain ⟨_, _, _, ended⟩ := Step.exists_of_run_bind ran
      cases ended
  | arrow params body =>
    rw [evaluateLink] at ran
    obtain ⟨_, _, _, ended⟩ := Step.exists_of_run_bind ran
    cases ended

theorem exists_of_evaluate {expression : Expression} {value : Value}
    (ran : (evaluate calls scope expression).run machine = (.done value, after)) :
    ∃ found, (evaluateLink calls scope expression).run machine = (.done found, after) ∧ found.getD .undefined = value := by
  rw [evaluate] at ran
  obtain ⟨found, between, ranLink, ended⟩ := Step.exists_of_run_bind ran
  cases ended
  exact ⟨found, ranLink, rfl⟩

/-- A nullish receiver of an optional link makes the whole chain undefined, and nothing is done behind
the receiver. Any other receiver makes the link one that is not optional; panics further along the
chain quote it as it is written. A chain is cut short for no other reason. -/
theorem optional_chains (calls : Calls host) (scope : Scope) :
    (∀ (receiver : Expression) (link : Link) (later : List (Link × Bool)) (machine after : Machine host) (value : Value),
      (evaluate calls scope receiver).run machine = (.done value, after) →
        (value.isNullish = true →
          (evaluate calls scope ((link.on true receiver).chain later)).run machine = (.done .undefined, after)) ∧
        (value.isNullish = false →
          (evaluateLink calls scope (link.on true receiver)).run machine =
            (evaluateLink calls scope (link.on false receiver)).run machine ∧
          Step.Agree (evaluate calls scope ((link.on true receiver).chain later))
            (evaluate calls scope ((link.on false receiver).chain later)) machine)) ∧
    ∀ (expression : Expression) (machine after : Machine host),
      (evaluateLink calls scope expression).run machine = (.done none, after) ↔ CutShort calls scope expression machine after := by
  refine ⟨fun receiver link later machine after value ran => ?_, fun expression machine after =>
    ⟨cutShort_of_evaluateLink expression, evaluateLink_of_cutShort⟩⟩
  obtain ⟨found, ranLink, isValue⟩ := exists_of_evaluate ran
  refine ⟨fun nullish => ?_, fun solid => ?_⟩
  · have skipped : (evaluateLink calls scope (link.on true receiver)).run machine = (.done none, after) := by
      rw [evaluateLink_on, Step.run_bind_of_done ranLink]
      cases found with
      | none => rfl
      | some value =>
        obtain rfl : value = _ := isValue
        rw [proceed, nullish]
        rfl
    rw [evaluate, Step.run_bind_of_done (evaluateLink_chain_none skipped later)]
    rfl
  · have same : (evaluateLink calls scope (link.on true receiver)).run machine =
        (evaluateLink calls scope (link.on false receiver)).run machine := by
      rw [evaluateLink_on, evaluateLink_on, Step.run_bind_of_done ranLink, Step.run_bind_of_done ranLink]
      cases found with
      | none =>
        subst isValue
        cases solid
      | some value =>
        obtain rfl : value = _ := isValue
        rw [proceed, proceed, solid]
        rfl
    have agree : Step.Agree (evaluateLink calls scope (link.on true receiver)) (evaluateLink calls scope (link.on false receiver))
        machine := by
      rw [Step.Agree, same]
      exact ⟨rfl, rfl⟩
    exact ⟨same, (agree_chain agree later).bind fun _ _ => .refl _ _⟩

/-- A chain in which neither the index nor the argument behind the optional link could be evaluated. -/
theorem optional_chains_missing :
    (evaluate (Calls.exhausted : Calls Host.bare) ⟨.undefined, []⟩ (.literal .null)).run Machine.bare = (.done .null, Machine.bare) ∧
    (evaluate (Calls.exhausted : Calls Host.bare) ⟨.undefined, []⟩ (.call
      (.index (.literal .null) (.identifier "missing") true) [.identifier "missing"] false)).run Machine.bare =
        (.done .undefined, Machine.bare) := by
  have receiver : (evaluate (Calls.exhausted : Calls Host.bare) ⟨.undefined, []⟩ (.literal .null)).run Machine.bare = (.done .null, Machine.bare) := by
    rw [evaluate, evaluateLink]
    rfl
  refine ⟨receiver, ?_⟩
  exact ((optional_chains Calls.exhausted ⟨.undefined, []⟩).1 (.literal .null) (.index (.identifier "missing"))
    [(.call [.identifier "missing"], false)] Machine.bare Machine.bare .null receiver).1 rfl

end Machine

end ReactiveMarkup
