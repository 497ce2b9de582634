import ReactiveMarkup.Proofs.CleanupLedgers

/-! Every cleanup that an effect leaves runs once, before the effect runs again or when it is disposed of,
and its reads are attributed to nobody. -/

namespace ReactiveMarkup.Procedure

open ReactiveMarkup.Graph ReactiveMarkup.Step ReactiveMarkup.Machine

/-! Events in an order that the runtime may bring about. -/

section

variable {events older : List Event} {effect other : Option Nat} {ticket : Nat}

/-- Whether a cleanup was left and has not taken control since. -/
def Outstanding (events : List Event) (effect : Option Nat) (ticket : Nat) : Prop :=
  .left effect ticket ∈ events ∧ ∀ observer, .cleaned ticket observer ∉ events

/-- Whether the events before it let an event happen. -/
def Event.MayFollow (older : List Event) : Event → Prop
  | .started effect => ∀ ticket, ¬ Outstanding older effect ticket
  | .left effect ticket =>
    (∀ other, .left other ticket ∉ older) ∧ (∀ observer, .cleaned ticket observer ∉ older) ∧ ∀ earlier, ¬ Outstanding older effect earlier
  | .cleaned ticket observer => observer = none ∧ ∃ effect, Outstanding older effect ticket

/-- Whether each event was allowed when it happened. -/
def Proper : List Event → Prop
  | [] => True
  | event :: older => event.MayFollow older ∧ Proper older

def Event.cleans (ticket : Nat) : Event → Bool
  | .cleaned other _ => other == ticket
  | _ => false

/-- All the times at which a cleanup took control. -/
def cleanings (ticket : Nat) (events : List Event) : List Event := events.filter (Event.cleans ticket)

theorem outstanding_started : Outstanding (.started other :: older) effect ticket ↔ Outstanding older effect ticket := by
  simp [Outstanding]

theorem outstanding_cleaned {earlier : Nat} {observer : Option Nat} :
    Outstanding (.cleaned earlier observer :: older) effect ticket ↔ Outstanding older effect ticket ∧ ticket ≠ earlier := by
  simp only [Outstanding, List.mem_cons, reduceCtorEq, false_or, Event.cleaned.injEq, not_or]
  grind

theorem outstanding_left {earlier : Nat} (unused : ∀ observer, .cleaned earlier observer ∉ older) :
    Outstanding (.left other earlier :: older) effect ticket ↔ (effect = other ∧ ticket = earlier) ∨ Outstanding older effect ticket := by
  simp only [Outstanding, List.mem_cons, reduceCtorEq, false_or, Event.left.injEq]
  grind

theorem Proper.of_suffix (proper : Proper events) (suffix : older <:+ events) : Proper older := by
  induction events with
  | nil => rwa [List.suffix_nil.1 suffix]
  | cons event events ih =>
    obtain rfl | suffix := List.suffix_cons_iff.1 suffix
    · exact proper
    · exact ih proper.2 suffix

/-- An effect has at most one cleanup that is outstanding. -/
theorem Proper.single (proper : Proper events) {another : Nat} (one : Outstanding events effect ticket) (two : Outstanding events effect another) :
    ticket = another := by
  induction events with
  | nil => cases one.1
  | cons event older ih =>
    obtain ⟨allowed, proper⟩ := proper
    cases event with
    | started => exact ih proper (outstanding_started.1 one) (outstanding_started.1 two)
    | cleaned => exact ih proper (outstanding_cleaned.1 one).1 (outstanding_cleaned.1 two).1
    | left other issued =>
      obtain ⟨_, unused, free⟩ := allowed
      rcases (outstanding_left unused).1 one with ⟨rfl, rfl⟩ | was <;> rcases (outstanding_left unused).1 two with ⟨here, rfl⟩ | still
      · rfl
      · exact absurd still (free another)
      · exact absurd was (here ▸ free ticket)
      · exact ih proper was still

/-- A ticket is given out once. -/
theorem Proper.owner (proper : Proper events) (one : .left effect ticket ∈ events) (two : .left other ticket ∈ events) : effect = other := by
  induction events with
  | nil => cases one
  | cons event older ih =>
    obtain ⟨allowed, proper⟩ := proper
    rcases List.mem_cons.1 one with rfl | one <;> rcases List.mem_cons.1 two with same | two
    · cases same
      rfl
    · exact absurd two (allowed.1 other)
    · exact absurd one (same ▸ allowed |>.1 effect)
    · exact ih proper one two

theorem cleanings_eq_nil_iff : cleanings ticket events = [] ↔ ∀ observer, .cleaned ticket observer ∉ events := by
  rw [cleanings, List.filter_eq_nil_iff]
  refine ⟨fun none observer member => none _ member (by simp [Event.cleans]), fun none event member cleans => ?_⟩
  cases event with
  | started | left => cases cleans
  | cleaned other observer =>
    obtain rfl : other = ticket := by simpa [Event.cleans] using cleans
    exact none observer member

/-- A cleanup takes control at most once, and nobody observes. -/
theorem Proper.cleanings_eq (proper : Proper events) (ticket : Nat) : cleanings ticket events = [] ∨ cleanings ticket events = [.cleaned ticket none] := by
  induction events with
  | nil => exact .inl rfl
  | cons event older ih =>
    cases cleans : event.cleans ticket with
    | false =>
      rw [cleanings, List.filter_cons_of_neg (by simp [cleans])]
      exact ih proper.2
    | true =>
      cases event with
      | started | left => cases cleans
      | cleaned other observer =>
        obtain rfl : other = ticket := by simpa [Event.cleans] using cleans
        obtain ⟨⟨rfl, effect, outstanding⟩, _⟩ := proper
        rw [cleanings, List.filter_cons_of_pos cleans, show older.filter (Event.cleans other) = [] from cleanings_eq_nil_iff.2 outstanding.2]
        exact .inr rfl

/-- A cleanup that is outstanding no more has taken control once. -/
theorem Proper.cleaned_once (proper : Proper events) (left : .left effect ticket ∈ events) (settled : ¬ Outstanding events effect ticket) :
    cleanings ticket events = [.cleaned ticket none] :=
  (proper.cleanings_eq ticket).resolve_left fun none => settled ⟨left, cleanings_eq_nil_iff.1 none⟩

end

variable {Memory : Type} {α β : Type} {calls : Calls (Host.procedural (Ledger × Memory))} {loose later : Option (Nat × Nat)} {id ticket : Nat}
  {machine before after : LedgerMachine Memory} {odd dirty : Nat → Prop}

/-- The effects keep just the cleanups that the ledger says are outstanding. One may be loose: no effect keeps it
any more, or yet. -/
structure Tidy (loose : Option (Nat × Nat)) (machine : LedgerMachine Memory) : Prop where
  bodies : ∀ id effect body, machine.graph.content? id = some (.effect effect) → effect.body = some body →
    ∃ procedure : Procedure Memory, body = .host procedure.lift
  codes : ∀ id computed, machine.graph.content? id = some (.computed computed) → ∃ procedure : Procedure Memory, computed.code = procedure.lift
  kept : ∀ id effect code, machine.graph.content? id = some (.effect effect) → effect.cleanup = some code → effect.disposed = false ∧
    effect.body.isSome ∧ ∃ (ticket : Nat) (cleanup : Procedure Memory), code = closing ticket cleanup.lift ∧
      Outstanding machine.world.memory.1.events (some id) ticket
  owed : ∀ effect ticket, Outstanding machine.world.memory.1.events effect ticket → ∃ id, effect = some id ∧
    (loose = some (id, ticket) ∨ ∃ content, machine.graph.content? id = some (.effect content) ∧ content.cleanup.isSome)
  loose : ∀ id ticket, loose = some (id, ticket) → Outstanding machine.world.memory.1.events (some id) ticket ∧
    ∀ effect, machine.graph.content? id = some (.effect effect) → effect.cleanup = none
  unissued : ∀ ticket, machine.world.memory.1.next ≤ ticket → (∀ effect, .left effect ticket ∉ machine.world.memory.1.events) ∧
    ∀ observer, .cleaned ticket observer ∉ machine.world.memory.1.events
  proper : Proper machine.world.memory.1.events

namespace Tidy

/-- The effects and the codes of computed values are what matters. -/
theorem congr (tidy : Tidy loose before)
    (effects : ∀ id effect, after.graph.content? id = some (.effect effect) ↔ before.graph.content? id = some (.effect effect))
    (codes : ∀ id computed, after.graph.content? id = some (.computed computed) →
      ∃ earlier, before.graph.content? id = some (.computed earlier) ∧ earlier.code = computed.code)
    (next : after.world.memory.1.next = before.world.memory.1.next) (events : after.world.memory.1.events = before.world.memory.1.events) :
    Tidy loose after := by
  refine ⟨fun id effect body found => tidy.bodies id effect body ((effects id effect).1 found), fun id computed found => ?_, ?_, ?_, ?_, ?_, ?_⟩
  · obtain ⟨earlier, was, same⟩ := codes id computed found
    exact same ▸ tidy.codes id earlier was
  · simpa only [effects, events] using tidy.kept
  · simpa only [effects, events] using tidy.owed
  · simpa only [effects, events] using tidy.loose
  · simpa only [next, events] using tidy.unissued
  · simpa only [events] using tidy.proper

theorem of_contents (tidy : Tidy loose before) (same : ∀ id, after.graph.content? id = before.graph.content? id)
    (ledger : after.world.memory.1 = before.world.memory.1) : Tidy loose after :=
  tidy.congr (fun id effect => by rw [same]) (fun id computed found => ⟨computed, same id ▸ found, rfl⟩) (by rw [ledger]) (by rw [ledger])

/-- One effect changes, and with it perhaps where its cleanup is. -/
theorem change {old new : LedgerEffect Memory} (tidy : Tidy loose before)
    (here : after.graph.content? id = some (.effect new)) (others : ∀ other, other ≠ id → after.graph.content? other = before.graph.content? other)
    (ledger : after.world.memory.1 = before.world.memory.1) (found : before.graph.content? id = some (.effect old))
    (about : ∀ other ticket, loose = some (other, ticket) → other = id)
    (bodies : ∀ body, new.body = some body → ∃ procedure : Procedure Memory, body = .host procedure.lift)
    (kept : ∀ code, new.cleanup = some code → new.disposed = false ∧ new.body.isSome ∧ ∃ (ticket : Nat) (cleanup : Procedure Memory),
      code = closing ticket cleanup.lift ∧ Outstanding before.world.memory.1.events (some id) ticket)
    (owed : ∀ ticket, Outstanding before.world.memory.1.events (some id) ticket → later = some (id, ticket) ∨ new.cleanup.isSome)
    (loosened : ∀ other ticket, later = some (other, ticket) →
      other = id ∧ Outstanding before.world.memory.1.events (some id) ticket ∧ new.cleanup = none) : Tidy later after := by
  refine ⟨fun other effect body content isBody => ?_, fun other computed content => ?_, fun other effect code content isCleanup => ?_,
    fun effect ticket outstanding => ?_, fun other ticket isLoose => ?_, ledger ▸ tidy.unissued, ledger ▸ tidy.proper⟩
  · by_cases same : other = id
    · subst same
      cases here.symm.trans content
      exact bodies body isBody
    · exact tidy.bodies other effect body (others other same ▸ content) isBody
  · have apart : other ≠ id := by
      rintro rfl
      cases here.symm.trans content
    exact tidy.codes other computed (others other apart ▸ content)
  · rw [ledger]
    by_cases same : other = id
    · subst same
      cases here.symm.trans content
      exact kept code isCleanup
    · exact tidy.kept other effect code (others other same ▸ content) isCleanup
  · rw [ledger] at outstanding
    obtain ⟨owner, rfl, place⟩ := tidy.owed effect ticket outstanding
    refine ⟨owner, rfl, ?_⟩
    by_cases same : owner = id
    · subst same
      exact (owed ticket outstanding).imp_right fun isSome => ⟨new, here, isSome⟩
    · obtain isLoose | ⟨content, was, isSome⟩ := place
      · exact absurd (about owner ticket isLoose) same
      · exact .inr ⟨content, (others owner same).trans was, isSome⟩
  · rw [ledger]
    obtain ⟨rfl, outstanding, gone⟩ := loosened other ticket isLoose
    refine ⟨outstanding, fun effect content => ?_⟩
    cases here.symm.trans content
    exact gone

/-- A cleanup that an effect keeps is outstanding, and no other one of that effect is. -/
theorem exists_of_kept (tidy : Tidy loose machine) {effect : LedgerEffect Memory}
    {code : Procedure (Ledger × Memory)} (found : machine.graph.content? id = some (.effect effect)) (isCleanup : effect.cleanup = some code) :
    ∃ (ticket : Nat) (cleanup : Procedure Memory), code = closing ticket cleanup.lift ∧ Outstanding machine.world.memory.1.events (some id) ticket ∧
      ∀ other, Outstanding machine.world.memory.1.events (some id) other → other = ticket := by
  obtain ⟨_, _, ticket, cleanup, rfl, outstanding⟩ := tidy.kept id effect code found isCleanup
  exact ⟨ticket, cleanup, rfl, outstanding, fun other more => tidy.proper.single more outstanding⟩

/-- An effect that keeps no cleanup has left none that is outstanding. -/
theorem not_outstanding (tidy : Tidy none machine) {effect : LedgerEffect Memory}
    (found : machine.graph.content? id = some (.effect effect)) (isCleanup : effect.cleanup = none) (ticket : Nat) :
    ¬ Outstanding machine.world.memory.1.events (some id) ticket := by
  intro outstanding
  obtain ⟨owner, same, isLoose | ⟨content, again, isSome⟩⟩ := tidy.owed _ ticket outstanding
  · cases isLoose
  · cases same
    cases found.symm.trans again
    simp [isCleanup] at isSome

/-- An effect whose body is running keeps no cleanup. -/
theorem clean_of_vacant (tidy : Tidy loose machine) {effect : LedgerEffect Memory} (found : machine.graph.content? id = some (.effect effect))
    (missing : effect.body = none) : effect.cleanup = none := by
  cases kept : effect.cleanup with
  | none => rfl
  | some code => simpa [missing] using (tidy.kept id effect code found kept).2.1

/-- The body of an effect takes control. -/
theorem started (tidy : Tidy none machine) {effect : LedgerEffect Memory}
    (found : machine.graph.content? id = some (.effect effect)) (isCleanup : effect.cleanup = none) :
    Tidy none (withLedger machine (machine.world.memory.1.note (.started (some id)))) := by
  refine ⟨tidy.bodies, tidy.codes, fun id effect code found isCleanup => ?_, fun effect ticket outstanding => ?_, nofun, fun ticket beyond => ?_,
    fun ticket => tidy.not_outstanding found isCleanup ticket, tidy.proper⟩
  · obtain ⟨awake, bodied, ticket, cleanup, same, outstanding⟩ := tidy.kept id effect code found isCleanup
    exact ⟨awake, bodied, ticket, cleanup, same, outstanding_started.2 outstanding⟩
  · exact tidy.owed effect ticket (outstanding_started.1 outstanding)
  · obtain ⟨unissued, unused⟩ := tidy.unissued ticket beyond
    exact ⟨fun effect member => unissued effect ((List.mem_cons.1 member).resolve_left nofun),
      fun observer member => unused observer ((List.mem_cons.1 member).resolve_left nofun)⟩

/-- A run has left a cleanup, which nobody keeps yet. -/
theorem left (tidy : Tidy none machine) {effect : LedgerEffect Memory}
    (found : machine.graph.content? id = some (.effect effect)) (isCleanup : effect.cleanup = none) :
    Tidy (some (id, machine.world.memory.1.next)) (withLedger machine (machine.world.memory.1.issue (some id)).2) := by
  obtain ⟨unissued, unused⟩ := tidy.unissued _ (Nat.le_refl _)
  have outstanding {effect : Option Nat} {ticket : Nat} : Outstanding (.left (some id) machine.world.memory.1.next :: machine.world.memory.1.events) effect ticket ↔ _ :=
    outstanding_left unused
  refine ⟨tidy.bodies, tidy.codes, fun id effect code found isCleanup => ?_, fun effect ticket still => ?_, fun other ticket isLoose => ?_,
    fun ticket beyond => ?_, ⟨unissued, unused, fun ticket => tidy.not_outstanding found isCleanup ticket⟩, tidy.proper⟩
  · obtain ⟨awake, bodied, ticket, cleanup, same, was⟩ := tidy.kept id effect code found isCleanup
    exact ⟨awake, bodied, ticket, cleanup, same, outstanding.2 (.inr was)⟩
  · obtain ⟨rfl, rfl⟩ | was := outstanding.1 still
    · exact ⟨id, rfl, .inl rfl⟩
    · obtain ⟨owner, rfl, place⟩ := tidy.owed effect ticket was
      exact ⟨owner, rfl, .inr (place.resolve_left nofun)⟩
  · cases isLoose
    refine ⟨outstanding.2 (.inl ⟨rfl, rfl⟩), fun effect again => ?_⟩
    cases found.symm.trans again
    exact isCleanup
  · obtain ⟨unissued, unused⟩ := tidy.unissued ticket (Nat.le_of_succ_le beyond)
    refine ⟨fun effect member => ?_, fun observer member => unused observer ((List.mem_cons.1 member).resolve_left nofun)⟩
    obtain same | member := List.mem_cons.1 member
    · cases same
      exact absurd beyond (Nat.not_succ_le_self _)
    · exact unissued effect member

/-- A loose cleanup takes control. -/
theorem cleaned (tidy : Tidy (some (id, ticket)) machine) (observer : machine.world.memory.1.observer = none) :
    Tidy none (withLedger machine (machine.world.memory.1.note (.cleaned ticket machine.world.memory.1.observer))) := by
  obtain ⟨loose, gone⟩ := tidy.loose id ticket rfl
  refine ⟨tidy.bodies, tidy.codes, fun other effect code found isCleanup => ?_, fun effect other still => ?_, nofun, fun other beyond => ?_,
    ⟨observer, some id, loose⟩, tidy.proper⟩
  · obtain ⟨awake, bodied, kept, cleanup, same, was⟩ := tidy.kept other effect code found isCleanup
    refine ⟨awake, bodied, kept, cleanup, same, outstanding_cleaned.2 ⟨was, ?_⟩⟩
    rintro rfl
    cases tidy.proper.owner was.1 loose.1
    cases (gone effect found).symm.trans isCleanup
  · obtain ⟨was, apart⟩ := outstanding_cleaned.1 still
    obtain ⟨owner, rfl, place⟩ := tidy.owed effect other was
    refine ⟨owner, rfl, .inr (place.resolve_left ?_)⟩
    rintro ⟨⟩
    exact apart rfl
  · obtain ⟨unissued, unused⟩ := tidy.unissued other beyond
    refine ⟨fun effect member => unissued effect ((List.mem_cons.1 member).resolve_left nofun), fun observer member => ?_⟩
    obtain same | member := List.mem_cons.1 member
    · cases same
      exact unissued _ loose.1
    · exact unused observer member

/-- The cleanup that an effect keeps is taken from it, and the effect may be marked as disposed of. -/
theorem take {old new : LedgerEffect Memory} {code : Procedure (Ledger × Memory)}
    (tidy : Tidy none before) (here : after.graph.content? id = some (.effect new))
    (others : ∀ other, other ≠ id → after.graph.content? other = before.graph.content? other)
    (ledger : after.world.memory.1 = before.world.memory.1) (found : before.graph.content? id = some (.effect old))
    (isCleanup : old.cleanup = some code) (taken : new.cleanup = none) (body : new.body = old.body) :
    ∃ (ticket : Nat) (cleanup : Procedure Memory), code = closing ticket cleanup.lift ∧ Tidy (some (id, ticket)) after := by
  obtain ⟨ticket, cleanup, rfl, outstanding, single⟩ := tidy.exists_of_kept found isCleanup
  refine ⟨ticket, cleanup, rfl, tidy.change here others ledger found nofun (fun task isBody => tidy.bodies id old task found (body ▸ isBody))
    (fun code isSome => ?_) (fun other more => .inl (by rw [single other more])) fun other loose same => ?_⟩
  · cases taken.symm.trans isSome
  · cases same
    exact ⟨rfl, outstanding, taken⟩

/-- An effect that keeps no cleanup changes. It gets no body. -/
theorem bare {old new : LedgerEffect Memory} (tidy : Tidy none before) (here : after.graph.content? id = some (.effect new))
    (others : ∀ other, other ≠ id → after.graph.content? other = before.graph.content? other)
    (ledger : after.world.memory.1 = before.world.memory.1) (found : before.graph.content? id = some (.effect old))
    (was : old.cleanup = none) (still : new.cleanup = none) (bodies : ∀ body, new.body = some body → old.body = some body) : Tidy none after := by
  refine tidy.change here others ledger found nofun (fun body isBody => tidy.bodies id old body found (bodies body isBody)) (fun code isCleanup => ?_)
    (fun ticket outstanding => absurd outstanding (tidy.not_outstanding found was ticket)) nofun
  cases still.symm.trans isCleanup

/-- A new member is a cell, or an effect that keeps no cleanup. -/
theorem add (tidy : Tidy none machine) (content : Content (Procedure (Ledger × Memory)) (Task (Procedure (Ledger × Memory))))
    (effects : ∀ effect, content = .effect effect → effect.cleanup = none ∧
      ∀ body, effect.body = some body → ∃ procedure : Procedure Memory, body = .host procedure.lift)
    (codes : ∀ computed, content = .computed computed → ∃ procedure : Procedure Memory, computed.code = procedure.lift) :
    Tidy none { machine with graph := (machine.graph.add content).2 } := by
  have contents {other : Nat} {content' : Content (Procedure (Ledger × Memory)) (Task (Procedure (Ledger × Memory)))}
      (found : (machine.graph.add content).2.content? other = some content') : content = content' ∨ machine.graph.content? other = some content' := by
    rw [content?_add] at found
    split at found
    · exact .inl (Option.some.inj found)
    · exact .inr found
  refine ⟨fun other effect body found isBody => ?_, fun other computed found => ?_, fun other effect code found isCleanup => ?_,
    fun effect ticket outstanding => ?_, nofun, tidy.unissued, tidy.proper⟩
  · obtain isNew | was := contents found
    · exact (effects effect isNew).2 body isBody
    · exact tidy.bodies other effect body was isBody
  · obtain isNew | was := contents found
    · exact codes computed isNew
    · exact tidy.codes other computed was
  · obtain isNew | was := contents found
    · cases (effects effect isNew).1.symm.trans isCleanup
    · exact tidy.kept other effect code was isCleanup
  · obtain ⟨owner, rfl, isLoose | ⟨kept, was, isSome⟩⟩ := tidy.owed effect ticket outstanding
    · cases isLoose
    · refine ⟨owner, rfl, .inr ⟨kept, ?_, isSome⟩⟩
      rw [content?_add, if_neg (Nat.ne_of_lt (machine.graph.lt_size_of_content? was)), was]

/-- An effect has its body again. -/
theorem restored {old : LedgerEffect Memory} (tidy : Tidy loose before) (procedure : Procedure Memory)
    (here : after.graph.content? id = some (.effect { old with body := some (.host procedure.lift) }))
    (others : ∀ other, other ≠ id → after.graph.content? other = before.graph.content? other)
    (ledger : after.world.memory.1 = before.world.memory.1) (found : before.graph.content? id = some (.effect old))
    (about : ∀ other ticket, loose = some (other, ticket) → other = id) : Tidy loose after := by
  refine tidy.change here others ledger found about (fun body isBody => ?_) (fun code isCleanup => ?_) (fun ticket outstanding => ?_)
    fun other ticket isLoose => ?_
  · cases isBody
    exact ⟨procedure, rfl⟩
  · obtain ⟨awake, _, rest⟩ := tidy.kept id old code found isCleanup
    exact ⟨awake, rfl, rest⟩
  · obtain ⟨owner, same, isLoose | ⟨content, again, isSome⟩⟩ := tidy.owed _ ticket outstanding <;> cases same
    · exact .inl isLoose
    · cases found.symm.trans again
      exact .inr isSome
  · obtain rfl := about other ticket isLoose
    obtain ⟨outstanding, gone⟩ := tidy.loose other ticket isLoose
    exact ⟨rfl, outstanding, gone old found⟩

/-- An effect keeps the cleanup that was loose. -/
theorem settled {old : LedgerEffect Memory} {cleanup : Procedure Memory} (tidy : Tidy (some (id, ticket)) before)
    (here : after.graph.content? id = some (.effect { old with cleanup := some (closing ticket cleanup.lift) }))
    (others : ∀ other, other ≠ id → after.graph.content? other = before.graph.content? other)
    (ledger : after.world.memory.1 = before.world.memory.1) (found : before.graph.content? id = some (.effect old))
    (awake : old.disposed = false) (bodied : old.body.isSome) : Tidy none after := by
  refine tidy.change here others ledger found (fun other ticket same => ?_) (tidy.bodies id old · found) (fun code isCleanup => ?_) (fun _ _ => .inr rfl) nofun
  · cases same
    rfl
  · cases isCleanup
    exact ⟨awake, bodied, ticket, cleanup, rfl, (tidy.loose id ticket rfl).1⟩

end Tidy

/-! Steps that are not cut short. -/

/-- What holds when a step ends, unless it is cut short. -/
def Closes (post : Ending α → LedgerMachine Memory → Prop) (step : LedgerRun Memory α)
    (machine : LedgerMachine Memory) : Prop :=
  (step.run machine).1 ≠ .exhausted → post (step.run machine).1 (step.run machine).2

/-- A step that leaves a tidy machine tidy. -/
def Tidies (step : LedgerRun Memory α) (machine : LedgerMachine Memory) : Prop :=
  Tidy none machine → Closes (fun _ after => Tidy none after) step machine

namespace Closes

variable {step : LedgerRun Memory α} {next : α → LedgerRun Memory β}
  {mid : Ending α → LedgerMachine Memory → Prop} {post : Ending β → LedgerMachine Memory → Prop}

theorem bind (first : Closes mid step machine) (broken : ∀ cause between, mid (.panicked cause) between → post (.panicked cause) between)
    (rest : ∀ value between, step.run machine = (.done value, between) → mid (.done value) between → Closes post (next value) between) :
    Closes post (step >>= next) machine := by
  show (Step.bind step next machine).1 ≠ _ → post (Step.bind step next machine).1 (Step.bind step next machine).2
  rw [Step.bind]
  cases ran : step.run machine with
  | mk ending between =>
    rw [Closes, ran] at first
    rw [show step machine = _ from ran]
    cases ending with
    | done value => exact rest value between ran (first (by simp))
    | panicked cause => exact fun _ => broken cause between (first (by simp))
    | exhausted => exact fun never => absurd rfl never

theorem graph? {next : LedgerGraph Memory → LedgerRun Memory β} : Closes post (Machine.graph? >>= next) machine ↔ Closes post (next machine.graph) machine :=
  Iff.rfl

theorem modify {f : LedgerGraph Memory → LedgerGraph Memory} {next : Unit → LedgerRun Memory β} :
    Closes post (modifyGraph f >>= next) machine ↔ Closes post (next ()) { machine with graph := f machine.graph } := Iff.rfl

theorem onLedger {access : Ledger → α × Ledger} : Closes post (Procedure.onLedger access >>= next) machine ↔
    Closes post (next (access machine.world.memory.1).1) (withLedger machine (access machine.world.memory.1).2) := Iff.rfl

theorem mono {weaker : Ending α → LedgerMachine Memory → Prop} (closes : Closes mid step machine)
    (implies : ∀ ending after, mid ending after → weaker ending after) : Closes weaker step machine :=
  fun ended => implies _ _ (closes ended)

end Closes

namespace Tidies

variable {step : LedgerRun Memory α} {next : α → LedgerRun Memory β}

theorem bind (first : Tidies step machine) (rest : ∀ value between, step.run machine = (.done value, between) → Tidies (next value) between) :
    Tidies (step >>= next) machine :=
  fun tidy => Closes.bind (first tidy) (fun _ _ still => still) fun value between ran still => rest value between ran still

/-- A step that keeps the effects, the codes of computed values, and the ledger. -/
theorem of_run {ending : Ending α} (ran : step.run machine = (ending, after)) (keeps : Tidy none machine → Tidy none after) : Tidies step machine := by
  intro tidy _
  rw [ran]
  exact keeps tidy

theorem modify {f : LedgerGraph Memory → LedgerGraph Memory}
    {next : Unit → LedgerRun Memory β} (keeps : Tidy none machine → Tidy none { machine with graph := f machine.graph })
    (rest : Tidies (next ()) { machine with graph := f machine.graph }) : Tidies (modifyGraph f >>= next) machine :=
  fun tidy => rest (keeps tidy)

theorem graph? {next : LedgerGraph Memory → LedgerRun Memory β} :
    Tidies (Machine.graph? >>= next) machine ↔ Tidies (next machine.graph) machine := Iff.rfl

theorem observed {observer : Option Nat} (tidies : Tidies step { machine with graph := { machine.graph with observer } }) :
    Tidies (observedBy observer step) machine :=
  fun tidy ended => (tidies (tidy.of_contents (fun _ => rfl) rfl) ended).of_contents (fun _ => rfl) rfl

theorem discard (tidies : Tidies step machine) : Tidies (Functor.discard step) machine :=
  tidies.bind fun _ _ _ => .of_run rfl fun tidy => tidy

theorem caught (tidies : Tidies step machine) : Tidies step.caught machine := by
  intro tidy
  have closed := tidies tidy
  show (Step.caught step machine).1 ≠ _ → Tidy none (Step.caught step machine).2
  rw [Step.caught]
  rw [Closes, show step.run machine = step machine from rfl] at closed
  cases ran : step machine with
  | mk ending between =>
    rw [ran] at closed
    cases ending with
    | done | panicked => exact fun _ => closed (by simp)
    | exhausted => exact fun never => absurd rfl never

theorem withBatch (tidies : Tidies step { machine with graph := machine.graph.enterBatch }) : Tidies (Machine.withBatch step) machine :=
  fun tidy ended => (tidies (tidy.of_contents (fun _ => rfl) rfl) ended).of_contents (fun _ => content?_leaveBatch ..) rfl

end Tidies

/-- How the body of an effect may end: with a cleanup that is loose, or without one. -/
def Returned (id : Nat) (ending : Ending (Option (Procedure (Ledger × Memory)))) (after : LedgerMachine Memory) : Prop :=
  match ending with
  | .done (some code) => ∃ (ticket : Nat) (cleanup : Procedure Memory), code = closing ticket cleanup.lift ∧ Tidy (some (id, ticket)) after
  | .done none => Tidy none after ∧ ∀ effect, after.graph.content? id = some (.effect effect) → effect.cleanup = none
  | _ => Tidy none after

/-- Calls that take down what happens to cleanups. -/
structure TidiesCalls (calls : Calls (Host.procedural (Ledger × Memory))) : Prop where
  records : KeepsRecords calls
  call : ∀ (procedure : Procedure Memory) arguments machine, Careful machine → Begun machine → Tidies (calls.call procedure.lift arguments) machine
  /-- A loose cleanup is called. -/
  close : ∀ (cleanup : Procedure Memory) arguments id ticket machine, Careful machine → machine.graph.observer = none →
    Tidy (some (id, ticket)) machine → Closes (fun _ after => Tidy none after) (calls.call (closing ticket cleanup.lift) arguments) machine
  react : ∀ (procedure : Procedure Memory) id machine, Careful machine → Begun machine → machine.graph.observer = some id → machine.graph.IsVacant id →
    Tidy none machine → Closes (Returned id) (calls.react procedure.lift) machine
  perform : ∀ (procedure : Procedure Memory) id machine, Careful machine → Begun machine → machine.graph.observer = some id → machine.graph.IsVacant id →
    Tidy none machine → Closes (Returned id) (calls.perform (.host procedure.lift)) machine
  flush : ∀ machine, Careful machine → Tidies calls.flush machine

section

variable (tidies : TidiesCalls calls) (careful : Careful machine)

include tidies careful

/-- A loose cleanup runs, and nobody observes. -/
theorem closes_untracked (cleanup : Procedure Memory) (tidy : Tidy (some (id, ticket)) machine) :
    Closes (fun _ after => Tidy none after) (Functor.discard (Machine.untrack (calls.call (closing ticket cleanup.lift) []))) machine := by
  have called : Closes (fun _ after => Tidy none after) (Machine.untrack (calls.call (closing ticket cleanup.lift) [])) machine := fun ended =>
    (tidies.close cleanup [] id ticket { machine with graph := { machine.graph with observer := none } } (careful.observe none nofun) rfl
      (tidy.of_contents (fun _ => rfl) rfl) ended).of_contents (fun _ => rfl) rfl
  exact called.bind (fun _ _ still => still) fun _ _ _ still _ => still

/-- An effect cleans up, which may be disposed of but is otherwise as it was when all was tidy. -/
theorem closes_runCleanup {old new : LedgerEffect Memory} (tidy : Tidy none before) (found : before.graph.content? id = some (.effect old))
    (here : machine.graph.content? id = some (.effect new)) (others : ∀ other, other ≠ id → machine.graph.content? other = before.graph.content? other)
    (ledger : machine.world.memory.1 = before.world.memory.1) (cleanup : new.cleanup = old.cleanup) (body : new.body = old.body) :
    Closes (fun _ after => Tidy none after) (runCleanup calls id) machine := by
  have isEffect := machine.graph.effect?_eq_some.2 here
  refine Closes.graph?.2 ?_
  split
  next bare =>
    have bare : new.cleanup = none := by simpa [isEffect] using bare
    exact fun _ => tidy.bare here others ledger found (cleanup ▸ bare) bare fun _ isBody => body ▸ isBody
  next code kept =>
    have kept : new.cleanup = some code := by simpa [isEffect] using kept
    have taken : ∃ (ticket : Nat) (cleanup : Procedure Memory), code = closing ticket cleanup.lift ∧ Tidy (some (id, ticket))
        { machine with graph := machine.graph.modifyEffect id fun effect => { effect with cleanup := none } } :=
      tidy.take (content?_modifyEffect_self _ _ here) (fun other apart => (content?_modifyEffect_of_ne _ _ apart).trans (others other apart)) ledger found
        (cleanup ▸ kept) rfl body
    obtain ⟨ticket, cleanup, rfl, taken⟩ := taken
    exact closes_untracked tidies (recorded_forgetCleanup careful id).careful cleanup taken

theorem tidies_runCleanup (id : Nat) : Tidies (runCleanup calls id) machine := by
  intro tidy
  cases isEffect : machine.graph.effect? id with
  | none =>
    refine Closes.graph?.2 ?_
    rw [isEffect]
    exact fun _ => tidy
  | some effect =>
    have found := machine.graph.effect?_eq_some.1 isEffect
    exact closes_runCleanup tidies careful tidy found found (fun _ _ => rfl) rfl rfl rfl

/-- What the run of an effect has left is kept, or runs at once if the effect was disposed of. -/
theorem closes_settleCleanup {cleanup : Option (Procedure (Ledger × Memory))} (returned : Returned id (.done cleanup) machine)
    (bodied : ∀ effect, machine.graph.content? id = some (.effect effect) → effect.body.isSome) :
    Closes (fun _ after => Tidy none after) (settleCleanup calls id cleanup) machine := by
  refine Closes.graph?.2 ?_
  split
  next =>
    cases cleanup with
    | none => exact fun _ => returned.1
    | some code =>
      obtain ⟨ticket, cleanup, rfl, tidy⟩ := returned
      exact closes_untracked tidies careful cleanup tidy
  next awake =>
    rw [Bool.not_eq_true] at awake
    cases isEffect : machine.graph.effect? id with
    | none => simp [isEffect] at awake
    | some effect =>
      have found := machine.graph.effect?_eq_some.1 isEffect
      have here := machine.graph.content?_modifyEffect_self (fun effect => { effect with cleanup }) found
      have others : ∀ other, other ≠ id → (machine.graph.modifyEffect id fun effect => { effect with cleanup }).content? other = machine.graph.content? other :=
        fun other apart => content?_modifyEffect_of_ne _ _ apart
      refine fun _ => ?_
      cases cleanup with
      | none => exact returned.1.bare here others rfl found (returned.2 effect found) rfl fun _ same => same
      | some code =>
        obtain ⟨ticket, cleanup, rfl, tidy⟩ := returned
        exact tidy.settled here others rfl found (by simpa [isEffect] using awake) (bodied effect found)

omit tidies careful in
theorem returned_resting {last : LedgerEffect Memory} {procedure : Procedure Memory} {ending : Ending (Option (Procedure (Ledger × Memory)))}
    (returned : Returned id ending after) (found : after.graph.content? id = some (.effect last)) :
    Returned id ending (resting machine after id (.host procedure.lift)) ∧
      ∀ effect, (resting machine after id (.host procedure.lift)).graph.content? id = some (.effect effect) → effect.body.isSome := by
  have here : (resting machine after id (.host procedure.lift)).graph.content? id = some (.effect { last with body := some (.host procedure.lift) }) :=
    content?_modifyEffect_self _ _ found
  have restored {loose : Option (Nat × Nat)} (tidy : Tidy loose after) (about : ∀ other ticket, loose = some (other, ticket) → other = id) :
      Tidy loose (resting machine after id (.host procedure.lift)) :=
    tidy.restored procedure here (fun other apart => content?_modifyEffect_of_ne _ _ apart) rfl found about
  refine ⟨?_, fun effect again => ?_⟩
  · cases ending with
    | done cleanup =>
      cases cleanup with
      | none =>
        refine ⟨restored returned.1 nofun, fun effect again => ?_⟩
        cases here.symm.trans again
        exact returned.2 last found
      | some code =>
        obtain ⟨ticket, cleanup, same, tidy⟩ := returned
        refine ⟨ticket, cleanup, same, restored tidy fun other ticket same => ?_⟩
        cases same
        rfl
    | panicked | exhausted => exact restored returned nofun
  · cases here.symm.trans again
    rfl

/-- The body of an effect that keeps no cleanup runs, and is back at the end. -/
theorem closes_body {effect : LedgerEffect Memory} {procedure : Procedure Memory} (tidy : Tidy none machine)
    (found : machine.graph.content? id = some (.effect effect)) (awake : effect.disposed = false)
    (clean : effect.cleanup = none) (inBatch : 0 < machine.graph.depth) :
    Closes (fun ending after => Returned id ending after ∧ ∀ effect, after.graph.content? id = some (.effect effect) → effect.body.isSome)
      (modifyGraph (·.modifyEffect id fun effect => { effect with body := none }) >>= fun _ =>
        (observedBy (some id) (holding (Task.host procedure.lift).parts (calls.perform (.host procedure.lift)))).after fun _ machine =>
          { machine with graph := machine.graph.modifyEffect id fun effect => { effect with body := some (.host procedure.lift) } }) machine := by
  have taken := machine.graph.content?_modifyEffect_self (fun effect => { effect with body := none }) found
  have begins : Tidy none (beginning machine id (Task.host procedure.lift).parts) :=
    tidy.bare taken (fun other apart => content?_modifyEffect_of_ne _ _ apart) rfl found clean clean nofun
  have carefully : Careful (beginning machine id (Task.host procedure.lift).parts) := careful_beginning careful found
  have begun : Begun (beginning machine id (Task.host procedure.lift).parts) := begun_beginning found awake inBatch
  have performed := tidies.perform procedure id _ carefully begun rfl ⟨_, taken, rfl⟩ begins
  obtain ⟨recorded, _⟩ := tidies.records.perform (.host procedure.lift) ⟨_, rfl⟩ _ carefully begun
  obtain ⟨last, foundLast, _⟩ := recorded.steady.effects id _ taken
  intro ended
  have rested : Returned id ((calls.perform (.host procedure.lift)).run (beginning machine id (Task.host procedure.lift).parts)).1
      (resting machine ((calls.perform (.host procedure.lift)).run (beginning machine id (Task.host procedure.lift).parts)).2 id (.host procedure.lift)) ∧ _ :=
    returned_resting (performed ended) foundLast
  exact rested

theorem tidies_runEffect (inBatch : 0 < machine.graph.depth) (id : Nat) : Tidies (runEffect calls id) machine := by
  refine Tidies.graph?.2 ?_
  split
  next => exact .of_run rfl fun tidy => tidy
  next effect found =>
    split
    next => exact .of_run rfl fun tidy => tidy
    next awake =>
      have live : machine.graph.IsLive id := ⟨effect, machine.graph.effect?_eq_some.1 found, by simpa using awake⟩
      have released : Recorded (· = id) (· = id) machine { machine with graph := machine.graph.release id } :=
        .gentle careful (.release careful.orderly.fit id) (.release live)
      have liveReleased : (machine.graph.release id).IsLive id := by simpa only [IsLive, content?_release] using live
      have inBatchReleased : 0 < (machine.graph.release id).depth := by rwa [depth_release]
      refine .modify (fun tidy => tidy.of_contents (fun other => content?_release ..) rfl) ?_
      refine .bind (tidies_runCleanup tidies released.careful id) fun _ between ran => Tidies.graph?.2 ?_
      obtain ⟨cleaned, clean⟩ := Leaves.of_run (records_runCleanup tidies.records released.careful id) ran
      split
      next => exact .of_run rfl fun tidy => tidy
      next body isBody =>
        obtain ⟨later, foundLater, stored⟩ := Option.bind_eq_some_iff.1 isBody
        replace foundLater := between.graph.effect?_eq_some.1 foundLater
        obtain ⟨content, again, emptied, dropped⟩ := clean liveReleased inBatchReleased
        cases foundLater.symm.trans again
        have stillAwake : later.disposed = false := by
          cases gone : later.disposed with
          | false => rfl
          | true => cases (dropped gone).symm.trans stored
        intro tidy
        obtain ⟨procedure, rfl⟩ := tidy.bodies id later body foundLater stored
        have inBatchStill : 0 < between.graph.depth := cleaned.steady.depth ▸ inBatchReleased
        rw [← LawfulMonad.bind_assoc]
        refine (closes_body tidies cleaned.careful tidy foundLater stillAwake emptied inBatchStill).bind (fun _ _ both => both.1) fun cleanup last ran both => ?_
        have recorded := Leaves.of_run (records_body tidies.records cleaned.careful foundLater stillAwake stored inBatchStill) ran
        exact closes_settleCleanup tidies recorded.careful both.1 both.2

theorem tidies_drain (inBatch : 0 < machine.graph.depth) (bound : Nat) : Tidies (drain calls bound) machine := by
  induction bound generalizing machine with
  | zero => exact fun _ never => absurd rfl never
  | succ bound ih =>
    rw [drain]
    refine Tidies.graph?.2 ?_
    cases waiting : machine.graph.queue with
    | nil =>
      rw [pop?, waiting]
      exact .of_run rfl fun tidy => tidy
    | cons id rest =>
      rw [pop?, waiting]
      have popped : Recorded (· = id) (· = id) machine { machine with graph := { machine.graph with queue := rest } } :=
        recorded_pop careful (waiting ▸ List.subset_cons_self id rest)
      refine .modify (fun tidy => tidy.of_contents (fun _ => rfl) rfl) (.bind (tidies_runEffect tidies popped.careful inBatch id) fun _ between ran => ?_)
      have recorded := popped.trans (Leaves.of_run (records_runEffect tidies.records popped.careful inBatch id) ran)
      exact ih recorded.careful (recorded.steady.depth ▸ inBatch)

theorem tidies_flush (bound : Nat) : Tidies (flush calls bound) machine := by
  refine Tidies.graph?.2 ?_
  split
  next => exact .of_run rfl fun tidy => tidy
  next => exact .withBatch (tidies_drain tidies careful.enterBatch (Nat.succ_pos _) bound)

omit careful in
theorem tidies_batch {step : LedgerRun Memory α} (records : Records odd dirty step { machine with graph := machine.graph.enterBatch })
    (inner : Tidies step { machine with graph := machine.graph.enterBatch }) : Tidies (Machine.batch calls step) machine := by
  have batched : Records odd dirty (Machine.withBatch step) machine := (leaves_withBatch ..).2 (Recorded.batched records _)
  refine .bind inner.withBatch fun value between ran => .bind (tidies.flush _ (Leaves.of_run batched ran).careful) fun _ _ _ => ?_
  exact .of_run rfl fun tidy => tidy

theorem tidies_newEffect (body : Procedure Memory) : Tidies (Machine.newEffect calls (.host body.lift)) machine := by
  have added := recorded_adding careful body.lift
  have ran : Tidies (Machine.batch calls (runEffect calls machine.graph.vertices.size) >>= fun _ => Pure.pure machine.graph.vertices.size)
      (adding machine body.lift) :=
    .bind (tidies_batch tidies (records_runEffect tidies.records added.careful.enterBatch (Nat.succ_pos _) _)
      (tidies_runEffect tidies added.careful.enterBatch (Nat.succ_pos _) _)) fun _ _ _ => .of_run rfl fun tidy => tidy
  refine fun tidy => ran (tidy.add _ (fun effect isEffect => ?_) nofun)
  cases isEffect
  refine ⟨rfl, fun task isBody => ?_⟩
  cases isBody
  exact ⟨body, rfl⟩

theorem tidies_dispose (id : Nat) : Tidies (Machine.dispose calls id) machine := by
  refine Tidies.graph?.2 ?_
  split
  next => exact .of_run rfl fun tidy => tidy
  next effect isEffect =>
    have found := machine.graph.effect?_eq_some.1 isEffect
    split
    next => exact .of_run rfl fun tidy => tidy
    next awake =>
      have live : machine.graph.IsLive id := ⟨effect, found, by simpa using awake⟩
      have retired := recorded_retire careful live
      have here := content?_retire_self found
      have gone : (machine.graph.retire id).IsDisposed id := ⟨_, here, rfl⟩
      have cleaned : Records.plain (runCleanup calls id) { machine with graph := machine.graph.retire id } :=
        (records_runCleanup tidies.records retired.careful id).mono fun _ => And.left
      refine fun tidy => Closes.modify.2 (Closes.bind
        (closes_runCleanup tidies retired.careful tidy found here (fun other apart => content?_retire_of_ne apart) rfl rfl rfl)
        (fun _ _ still => still) fun _ between ran still _ => ?_)
      obtain ⟨later, foundLater, isGone⟩ := (Leaves.of_run cleaned ran).steady.isDisposed gone
      have bare : later.cleanup = none := by
        cases kept : later.cleanup with
        | none => rfl
        | some code => cases (still.kept id later code foundLater kept).1.symm.trans isGone
      exact still.bare (content?_modifyEffect_self _ _ foundLater) (fun other apart => content?_modifyEffect_of_ne _ _ apart) rfl foundLater bare bare nofun

omit tidies careful in
theorem Tidy.modifyComputed (tidy : Tidy none machine) (cell : Nat) (f : Computed (Procedure (Ledger × Memory)) → Computed (Procedure (Ledger × Memory)))
    (code : ∀ computed, (f computed).code = computed.code) : Tidy none { machine with graph := machine.graph.modifyComputed cell f } := by
  refine tidy.congr (fun other effect => ?_) (fun other computed found => ?_) rfl rfl
  · rw [content?_modifyComputed]
    split
    next same =>
      subst same
      cases machine.graph.content? other with
      | none => rfl
      | some content => cases content <;> simp
    next => rfl
  · rw [content?_modifyComputed] at found
    split at found
    next same =>
      subst same
      split at found
      next earlier was =>
        cases found
        exact ⟨earlier, was, (code earlier).symm⟩
      next noComputed => exact absurd found (noComputed computed)
    next => exact ⟨computed, found, rfl⟩

theorem tidies_readComputed (engaged : Engaged machine) (member : machine.graph ∈ machine.world.seen) {cell : Nat}
    (inside : cell < machine.graph.vertices.size) : Tidies (readComputed calls cell) machine := by
  have tracked : Recorded.plain machine _ := recorded_track careful engaged member inside
  refine .modify (fun tidy => tidy.of_contents (fun _ => content?_track ..) rfl) (Tidies.graph?.2 ?_)
  split
  next => exact .of_run rfl fun tidy => tidy
  next computed found =>
    split
    next => exact .of_run rfl fun tidy => tidy
    split
    next => exact .of_run rfl fun tidy => tidy
    have isComputed := (machine.graph.track cell).computed?_eq_some.1 found
    have computes : Tidies (modifyGraph (·.modifyComputed cell fun computed => { computed with computing := true }) >>= fun _ =>
        (observedBy (some cell) (calls.call computed.code [])).after fun _ machine =>
          { machine with graph := machine.graph.modifyComputed cell fun computed => { computed with computing := false } })
        { machine with graph := machine.graph.track cell } := by
      intro tidy
      obtain ⟨procedure, isCode⟩ := tidy.codes cell computed isComputed
      rw [isCode]
      have called := tidies.call procedure [] (computing { machine with graph := machine.graph.track cell } cell)
        (careful_computing tracked.careful isComputed) (begun_computing isComputed)
        ((tidy.modifyComputed cell (fun computed => { computed with computing := true }) fun _ => rfl).of_contents (fun _ => rfl) rfl)
      exact fun ended => ((called ended).modifyComputed cell (fun computed => { computed with computing := false }) fun _ => rfl).of_contents (fun _ => rfl) rfl
    rw [← LawfulMonad.bind_assoc]
    refine computes.bind fun value between _ => ?_
    exact .of_run rfl fun tidy => tidy.modifyComputed cell (fun computed => { computed with value := some value, stale := false }) fun _ => rfl

theorem tidies_readCell (engaged : Engaged machine) (member : machine.graph ∈ machine.world.seen) (cell : Nat) :
    Tidies (readCell calls cell) machine := by
  refine Tidies.graph?.2 ?_
  split
  next => exact .of_run rfl fun tidy => tidy.of_contents (fun _ => content?_track ..) rfl
  next found => exact tidies_readComputed tidies careful engaged member (machine.graph.lt_size_of_content? found)
  next => exact .of_run rfl fun tidy => tidy

theorem tidies_updateSignal {cell : Nat} {held : Value} (signal : machine.graph.content? cell = some (.signal held)) (value : Value) :
    Tidies (updateSignal calls cell value) machine := by
  have symmetric := careful.orderly.fit.symmetric
  have written : Recorded.plain machine { machine with graph := machine.graph.write cell value } :=
    .gentle careful (.write careful.orderly.fit signal value) (.write symmetric signal value)
  refine fun tidy => tidies.flush { machine with graph := machine.graph.write cell value } written.careful
    (tidy.congr (fun _ _ => effect_write symmetric signal value) (fun id computed found => ?_) rfl rfl)
  obtain ⟨earlier, was, same, _⟩ := computed_write symmetric (machine.graph.lt_size_of_content? signal) found
  exact ⟨earlier, was, same⟩

theorem tidies_writeSignal {cell : Nat} {held : Value} (signal : machine.graph.content? cell = some (.signal held)) (value : Value) :
    Tidies (writeSignal calls cell value) machine := by
  show Tidies (if ((machine.graph.value? cell).getD .undefined).same value then Pure.pure () else updateSignal calls cell value) machine
  split
  next => exact .of_run rfl fun tidy => tidy
  next => exact tidies_updateSignal tidies careful signal value

omit tidies careful in
theorem tidies_onSignal {cell : Nat} {act : LedgerRun Memory Unit}
    (acting : ∀ held, machine.graph.content? cell = some (.signal held) → Tidies act machine) : Tidies (onSignal cell act) machine := by
  refine Tidies.graph?.2 ?_
  split
  next held signal => exact acting held signal
  next => exact .of_run rfl fun tidy => tidy

end

/-! Procedures. -/

/-- What a procedure leaves to clean up is one that leaves the ledger alone. -/
def Leaving (ending : Ending (Value × Option (Procedure (Ledger × Memory)))) : Prop :=
  ∀ value code, ending = .done (value, some code) → ∃ cleanup : Procedure Memory, code = cleanup.lift

/-- A step of a procedure, and the rest of it. -/
theorem Closes.proceed {step : LedgerRun Memory α} {next : α → LedgerRun Memory (Value × Option (Procedure (Ledger × Memory)))} (careful : Careful machine)
    (engaged : Engaged machine) (records : Records.plain step machine) (first : Tidies step machine) (tidy : Tidy none machine)
    (rest : ∀ value between, Careful between → Begun between → Tidy none between →
      Closes (fun ending after => Tidy none after ∧ Leaving ending) (next value) between) :
    Closes (fun ending after => Tidy none after ∧ Leaving ending) (step >>= next) machine := by
  refine (first tidy).bind (fun cause between still => ⟨still, nofun⟩) fun value between ran still => ?_
  have recorded := Leaves.of_run records ran
  exact rest value between recorded.careful (recorded.engaged careful.orderly.fit engaged).begun still

theorem closes_observe (careful : Careful machine) (begun : Begun machine) (tidy : Tidy none machine)
    {next : LedgerRun Memory β} {post : Ending β → LedgerMachine Memory → Prop}
    (rest : Careful (observing machine) → Engaged (observing machine) → Tidy none (observing machine) → Closes post next (observing machine)) :
    Closes post (observe >>= fun _ => next) machine :=
  rest (recorded_observing careful begun).careful (engaged_observing begun) (tidy.of_contents (fun _ => rfl) rfl)

theorem closes_run (tidies : TidiesCalls calls) (procedure : Procedure Memory) (careful : Careful machine) (begun : Begun machine) (tidy : Tidy none machine) :
    Closes (fun ending after => Tidy none after ∧ Leaving ending) (procedure.lift.run calls) machine := by
  have keeps := tidies.records
  induction procedure generalizing machine with
  | finish value =>
    refine closes_observe careful begun tidy fun _ _ tidy _ => ⟨tidy, fun _ _ same => ?_⟩
    cases same
  | leave cleanup =>
    refine closes_observe careful begun tidy fun _ _ tidy _ => ⟨tidy, fun _ _ same => ?_⟩
    cases same
    exact ⟨cleanup, rfl⟩
  | panic message => exact closes_observe careful begun tidy fun _ _ tidy _ => ⟨tidy, nofun⟩
  | newSignal value next ih =>
    refine closes_observe careful begun tidy fun careful engaged tidy => ?_
    exact .proceed careful engaged (records_add careful nofun nofun) (.of_run rfl fun tidy => tidy.add _ nofun nofun) tidy fun id _ => ih id
  | newComputed body next _ ih =>
    refine closes_observe careful begun tidy fun careful engaged tidy => ?_
    refine .proceed careful engaged (records_add careful nofun fun computed same => by cases same; rfl) (.of_run rfl fun tidy => tidy.add _ nofun ?_) tidy
      fun id _ => ih id
    rintro _ ⟨⟩
    exact ⟨body, rfl⟩
  | newEffect body next _ ih =>
    refine closes_observe careful begun tidy fun careful engaged tidy => ?_
    exact .proceed careful engaged (records_newEffect keeps careful body.lift) (tidies_newEffect tidies careful body) tidy fun id _ => ih id
  | get cell next ih =>
    refine closes_observe careful begun tidy fun careful engaged tidy => ?_
    exact .proceed careful engaged (records_readCell keeps careful engaged List.mem_cons_self cell)
      (tidies_readCell tidies careful engaged List.mem_cons_self cell) tidy fun value _ => ih value
  | peek cell next ih => exact closes_observe careful begun tidy fun careful engaged tidy => ih _ careful engaged.begun tidy
  | set cell value next ih =>
    refine closes_observe careful begun tidy fun careful engaged tidy => ?_
    exact .proceed careful engaged (records_onSignal careful fun held signal => records_writeSignal keeps careful signal value)
      (tidies_onSignal fun held signal => tidies_writeSignal tidies careful signal value) tidy fun _ _ => ih
  | update cell value next ih =>
    refine closes_observe careful begun tidy fun careful engaged tidy => ?_
    exact .proceed careful engaged (records_onSignal careful fun held signal => records_updateSignal keeps careful signal value)
      (tidies_onSignal fun held signal => tidies_updateSignal tidies careful signal value) tidy fun _ _ => ih
  | batch body next ihBody ih =>
    refine closes_observe careful begun tidy fun careful engaged tidy => ?_
    have records := (conducts_run keeps body.lift careful.enterBatch engaged.begun.enterBatch).mono fun _ both => both.1
    have inner : Tidies (body.lift.run calls) _ := fun tidy => (ihBody careful.enterBatch engaged.begun.enterBatch tidy).mono fun _ _ both => both.1
    exact .proceed careful engaged (records_batch keeps records) (tidies_batch tidies records inner) tidy fun result _ => ih result.1
  | untrack body next ihBody ih =>
    refine closes_observe careful begun tidy fun careful engaged tidy => ?_
    have records := (conducts_run keeps body.lift (careful.observe none nofun) nofun).mono fun _ both => both.1
    have inner : Tidies (body.lift.run calls) _ := fun tidy => (ihBody (careful.observe none nofun) nofun tidy).mono fun _ _ both => both.1
    exact .proceed careful engaged (.observed careful nofun records) inner.observed tidy fun result _ => ih result.1
  | attempt body next ihBody ih =>
    refine closes_observe careful begun tidy fun careful engaged tidy => ?_
    have records := (conducts_run keeps body.lift careful engaged.begun).mono fun _ both => both.1
    have inner : Tidies (body.lift.run calls) _ := fun tidy => (ihBody careful engaged.begun tidy).mono fun _ _ both => both.1
    exact .proceed careful engaged ((leaves_caught ..).2 records) inner.caught tidy fun result _ => ih (result.map Prod.fst)
  | dispose effect next ih =>
    refine closes_observe careful begun tidy fun careful engaged tidy => ?_
    exact .proceed careful engaged (records_dispose keeps careful effect) (tidies_dispose tidies careful effect) tidy fun _ _ => ih
  | remember access next ih =>
    refine closes_observe careful begun tidy fun careful engaged tidy => ?_
    have remembered := recorded_memory careful (machine.world.memory.1, (access machine.world.memory.2).2)
    have rest := ih (access machine.world.memory.2).1 remembered.careful engaged.begun (tidy.of_contents (fun _ => rfl) rfl)
    exact rest

section

variable (tidies : TidiesCalls calls) (careful : Careful machine)

include tidies careful

/-- A loose cleanup takes control, and nobody observes. -/
theorem closes_closing (cleanup : Procedure Memory) (unobserved : machine.graph.observer = none) (called : machine.world.memory.1.observer = none)
    (tidy : Tidy (some (id, ticket)) machine) : Closes (fun _ after => Tidy none after) ((closing ticket cleanup.lift).run calls) machine := by
  have begun : Begun machine := fun _ _ _ observed => by cases unobserved.symm.trans observed
  have observed := recorded_observing careful begun
  have seen : Tidy (some (id, ticket)) (observing machine) := tidy.of_contents (fun _ => rfl) rfl
  have cleaned := seen.cleaned called
  have noted := recorded_withLedger observed.careful (machine.world.memory.1.note (.cleaned ticket machine.world.memory.1.observer))
  have rest := closes_run tidies cleanup noted.careful (engaged_observing begun).begun cleaned
  exact rest.mono fun _ _ => And.left

/-- The body of an effect that keeps no cleanup takes control. -/
theorem closes_react (procedure : Procedure Memory) (begun : Begun machine) (observed : machine.graph.observer = some id)
    (vacant : machine.graph.IsVacant id) (tidy : Tidy none machine) :
    Closes (Returned id) ((Interpreter.ledgered Memory).react calls procedure.lift) machine := by
  have ⟨effect, found, missing⟩ := vacant
  have started := tidy.started found (tidy.clean_of_vacant found missing)
  have noted := recorded_withLedger careful (machine.world.memory.1.note (.started (some id)))
  refine Closes.graph?.2 (Closes.onLedger.2 ?_)
  rw [observed]
  refine (closes_run tidies procedure noted.careful begun started).bind (fun _ _ both => both.1) fun result between ran both => ?_
  have recorded := (Leaves.of_run (conducts_run tidies.records procedure.lift noted.careful begun) ran).1
  obtain ⟨later, foundLater, stillMissing⟩ := recorded.vacant id vacant
  have clean := both.1.clean_of_vacant foundLater stillMissing
  obtain ⟨value, _ | code⟩ := result
  · refine fun _ => ⟨both.1, fun effect again => ?_⟩
    cases foundLater.symm.trans again
    exact clean
  · obtain ⟨cleanup, rfl⟩ := both.2 value code rfl
    exact fun _ => ⟨_, cleanup, rfl, both.1.left foundLater clean⟩

end

theorem tidiesCalls_upTo (depth : Nat) : TidiesCalls (Calls.upTo (Interpreter.ledgered Memory) depth) := by
  induction depth with
  | zero =>
    exact ⟨keepsRecords_ledgered 0, fun _ _ _ _ _ _ never => absurd rfl never, fun _ _ _ _ _ _ _ _ never => absurd rfl never,
      fun _ _ _ _ _ _ _ _ never => absurd rfl never, fun _ _ _ _ _ _ _ _ never => absurd rfl never, fun _ _ _ never => absurd rfl never⟩
  | succ depth ih =>
    have noted (machine : LedgerMachine Memory) (careful : Careful machine) :=
      recorded_withLedger careful { machine.world.memory.1 with observer := machine.graph.observer }
    refine ⟨keepsRecords_ledgered (depth + 1), fun procedure _ machine careful begun tidy => ?_, fun cleanup _ id ticket machine careful unobserved tidy => ?_,
      fun procedure id machine careful begun => closes_react ih careful procedure begun, fun procedure => ih.react procedure,
      fun _ careful => tidies_flush ih careful depth⟩
    · have called := closes_run ih procedure (noted machine careful).careful begun (tidy.congr (fun _ _ => Iff.rfl) (fun _ computed found => ⟨computed, found, rfl⟩) rfl rfl)
      refine Closes.graph?.2 (Closes.onLedger.2 ?_)
      rw [map_eq_pure_bind]
      exact called.bind (fun _ _ both => both.1) fun _ _ _ both _ => both.1
    · have called := closes_closing ih (noted machine careful).careful cleanup unobserved unobserved
        (tidy.congr (fun _ _ => Iff.rfl) (fun _ computed found => ⟨computed, found, rfl⟩) rfl rfl)
      refine Closes.graph?.2 (Closes.onLedger.2 ?_)
      rw [map_eq_pure_bind]
      exact called.bind (fun _ _ still => still) fun _ _ _ still _ => still

/-- The machines that procedures lead to beside a ledger, run one after the other from outside, each to its end or to a panic. -/
inductive Ledgered : LedgerMachine Memory → Prop where
  | start (memory : Memory) : Ledgered (Machine.procedural ({}, memory))
  | run {before after : LedgerMachine Memory} {procedure : Procedure Memory} {depth : Nat}
      {ending : Ending (Value × Option (Procedure (Ledger × Memory)))} (ledgered : Ledgered before)
      (ran : (procedure.lift.run (Calls.upTo (Interpreter.ledgered Memory) depth)).run before = (ending, after)) (ended : ending ≠ .exhausted) :
      Ledgered after

theorem Ledgered.tidy (ledgered : Ledgered machine) : Careful machine ∧ machine.graph.observer = none ∧ Tidy none machine := by
  induction ledgered with
  | start memory =>
    have none (id : Nat) : (Machine.procedural (({} : Ledger), memory)).graph.content? id = Option.none := by simp [Machine.procedural, content?]
    have reached : Reached (Machine.procedural (({} : Ledger), memory)) := .start _
    have nothing : (Machine.procedural (({} : Ledger), memory)).world.memory.1.events = [] := rfl
    refine ⟨reached.careful.1, rfl, ?_, ?_, ?_, ?_, ?_, ?_, trivial⟩ <;> simp [none, nothing, Outstanding]
  | @run before after procedure depth ending _ ran ended ih =>
    obtain ⟨careful, unobserved, tidy⟩ := ih
    have begun : Begun before := fun _ _ _ observed => by cases unobserved.symm.trans observed
    have recorded := ((conducts_run (keepsRecords_ledgered depth) procedure.lift careful begun).of_run ran).1
    have closed := closes_run (tidiesCalls_upTo depth) procedure careful begun tidy
    rw [Closes, ran] at closed
    exact ⟨recorded.careful, recorded.steady.observer.trans unobserved, (closed ended).1⟩

/-- Each cleanup that an effect leaves takes control exactly once before the body of the effect takes control again,
exactly once if the effect was disposed of, never before it was left, never twice, and only while nobody observes. At
any time an effect has at most one that is outstanding, and is live and keeps it. Tickets tell cleanups apart. -/
theorem cleanups_of_ledgered (ledgered : Ledgered machine) :
    (∀ newer older effect, machine.world.memory.1.events = newer ++ .started effect :: older → ∀ ticket, .left effect ticket ∈ older →
      cleanings ticket older = [.cleaned ticket none] ∧ cleanings ticket machine.world.memory.1.events = [.cleaned ticket none]) ∧
    (∀ effect, machine.graph.IsDisposed effect → ∀ ticket, .left (some effect) ticket ∈ machine.world.memory.1.events →
      cleanings ticket machine.world.memory.1.events = [.cleaned ticket none]) ∧
    (∀ newer older ticket observer, machine.world.memory.1.events = newer ++ .cleaned ticket observer :: older →
      observer = none ∧ (∃ effect, .left effect ticket ∈ older) ∧ cleanings ticket older = [] ∧ cleanings ticket newer = []) ∧
    (∀ older, older <:+ machine.world.memory.1.events → ∀ effect one other, Outstanding older effect one → Outstanding older effect other → one = other) ∧
    (∀ effect ticket, Outstanding machine.world.memory.1.events effect ticket → ∃ id content, effect = some id ∧
      machine.graph.content? id = some (.effect content) ∧ content.disposed = false ∧
      ∃ cleanup : Procedure Memory, content.cleanup = some (closing ticket cleanup.lift)) ∧
    ∀ newer older effect ticket, machine.world.memory.1.events = newer ++ .left effect ticket :: older →
      ∀ other, .left other ticket ∉ newer ∧ .left other ticket ∉ older := by
  obtain ⟨_, _, tidy⟩ := ledgered.tidy
  have allowed {newer older : List Event} {event : Event} (split : machine.world.memory.1.events = newer ++ event :: older) :
      event.MayFollow older ∧ Proper older := tidy.proper.of_suffix ⟨newer, split.symm⟩
  have kept {effect : Option Nat} {ticket : Nat} (outstanding : Outstanding machine.world.memory.1.events effect ticket) :
      ∃ id content, effect = some id ∧ machine.graph.content? id = some (.effect content) ∧ content.disposed = false ∧
        ∃ cleanup : Procedure Memory, content.cleanup = some (closing ticket cleanup.lift) := by
    obtain ⟨id, rfl, isLoose | ⟨content, found, isSome⟩⟩ := tidy.owed effect ticket outstanding
    · cases isLoose
    · obtain ⟨code, isCleanup⟩ := Option.isSome_iff_exists.1 isSome
      obtain ⟨issued, cleanup, rfl, _, single⟩ := tidy.exists_of_kept found isCleanup
      exact ⟨id, content, rfl, found, (tidy.kept id content _ found isCleanup).1, cleanup, single ticket outstanding ▸ isCleanup⟩
  refine ⟨fun newer older effect split ticket left => ?_, fun effect disposed ticket left => ?_, fun newer older ticket observer split => ?_,
    fun older suffix effect one other => (tidy.proper.of_suffix suffix).single, fun effect ticket => kept, fun newer older effect ticket split other => ?_⟩
  · obtain ⟨free, proper⟩ := allowed split
    have once := proper.cleaned_once left (free ticket)
    have member : .cleaned ticket none ∈ older := (List.mem_filter.1 (once ▸ List.mem_singleton_self _)).1
    have within {event : Event} (inOlder : event ∈ older) : event ∈ machine.world.memory.1.events := by simp [split, inOlder]
    exact ⟨once, tidy.proper.cleaned_once (within left) fun outstanding => outstanding.2 none (within member)⟩
  · refine tidy.proper.cleaned_once left fun outstanding => ?_
    obtain ⟨id, content, same, found, awake, _⟩ := kept outstanding
    cases same
    exact disposed.not_isLive ⟨content, found, awake⟩
  · obtain ⟨⟨unobserved, effect, outstanding⟩, _⟩ := allowed split
    have none := cleanings_eq_nil_iff.2 outstanding.2
    refine ⟨unobserved, ⟨effect, outstanding.1⟩, none, ?_⟩
    have all := tidy.proper.cleanings_eq ticket
    rw [split, cleanings, List.filter_append, List.filter_cons_of_pos (by simp [Event.cleans])] at all
    obtain all | all := all
    · simp at all
    · exact (List.append_eq_singleton_iff.1 all).elim And.left fun both => by cases both.2
  · refine ⟨fun again => ?_, (allowed split).1.1 other⟩
    obtain ⟨front, back, rfl⟩ := List.append_of_mem again
    have later : machine.world.memory.1.events = front ++ .left other ticket :: (back ++ .left effect ticket :: older) := by simp [split]
    exact (allowed later).1.1 effect (by simp)

/-- An effect whose cleanups write a signal runs twice, and disposes of itself in its second run. -/
private def scrupulous : Procedure Unit :=
  .newSignal (.bool true) fun signal => .newSignal (.bool true) fun other =>
    .newEffect (.get signal fun value =>
      if value.isTruthy then .leave (.set other (.bool false) (.finish .undefined))
      else .dispose 2 (.leave (.set other (.bool true) (.finish .undefined)))) fun _ =>
      .set signal (.bool false) (.finish .undefined)

private def scrubbed : LedgerMachine Unit :=
  ((scrupulous.lift.run (Calls.upTo (Interpreter.ledgered Unit) 9)).run (Machine.procedural ({}, ()))).2

theorem cleanups_of_ledgered_scrupulous : ∃ machine : LedgerMachine Unit, Ledgered machine ∧ machine.world.memory.1.events =
      [.cleaned 1 none, .left (some 2) 1, .started (some 2), .cleaned 0 none, .left (some 2) 0, .started (some 2)] ∧
    machine.graph.IsDisposed 2 ∧ cleanings 0 [.cleaned 0 none, .left (some 2) 0, .started (some 2)] = [.cleaned 0 none] ∧
    cleanings 1 machine.world.memory.1.events = [.cleaned 1 none] := by
  have done : (scrupulous.lift.run (Calls.upTo (Interpreter.ledgered Unit) 9)).run (Machine.procedural ({}, ())) =
      (.done (.undefined, none), scrubbed) := Step.run_of_ending (by cbv)
  have ledgered : Ledgered scrubbed := .run (.start ()) done (by simp)
  have events : scrubbed.world.memory.1.events =
      [.cleaned 1 none, .left (some 2) 1, .started (some 2), .cleaned 0 none, .left (some 2) 0, .started (some 2)] := by cbv
  have disposed : scrubbed.graph.IsDisposed 2 := by
    have gone : (scrubbed.graph.effect? 2).map Effect.disposed = some true := by cbv
    obtain ⟨effect, found, isGone⟩ := Option.map_eq_some_iff.1 gone
    exact ⟨effect, scrubbed.graph.effect?_eq_some.1 found, isGone⟩
  obtain ⟨before, atEnd, _⟩ := cleanups_of_ledgered ledgered
  exact ⟨scrubbed, ledgered, events, disposed, (before [.cleaned 1 none, .left (some 2) 1] _ (some 2) events 0 (by simp)).1,
    atEnd 2 disposed 1 (by simp [events])⟩

end ReactiveMarkup.Procedure
