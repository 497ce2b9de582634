import ReactiveMarkup.Proofs.CodeNames
import ReactiveMarkup.Proofs.LoweredCode

/-! What lowering notes while it walks over markup is what the code that comes of it needs: it calls
the constructors, constants and child components that were noted, and no others. -/

namespace ReactiveMarkup

namespace Code

variable {m : Mention}

/-! Mentions by the form of code. -/

/-- A name is mentioned by some of the code. -/
def MentionedIn (codes : List Code) (m : Mention) : Prop := ∃ code ∈ codes, m ∈ code.mentions

theorem mentionedIn_nil : ¬ MentionedIn [] m := nofun

theorem mentionedIn_cons {code : Code} {rest : List Code} : MentionedIn (code :: rest) m ↔ m ∈ code.mentions ∨ MentionedIn rest m := by
  simp only [MentionedIn, List.mem_cons, or_and_right, exists_or, exists_eq_left]

theorem mentionedIn_singleton {code : Code} : MentionedIn [code] m ↔ m ∈ code.mentions := by
  rw [mentionedIn_cons, or_iff_left mentionedIn_nil]

theorem mentionedIn_append {codes others : List Code} : MentionedIn (codes ++ others) m ↔ MentionedIn codes m ∨ MentionedIn others m := by
  simp only [MentionedIn, List.mem_append, or_and_right, exists_or]

/-- Code that is put together from other code mentions what that mentions, and what it mentions itself. -/
theorem mem_mentions {code : Code} {inner : List Code} (isParts : code.parts = code :: inner.flatMap parts) :
    m ∈ code.mentions ↔ mention? code = some m ∨ MentionedIn inner m := by
  simp only [MentionedIn, mentions, isParts, List.mem_filterMap, List.mem_cons, List.mem_flatMap, or_and_right, exists_or, exists_eq_left]
  refine or_congr_right ⟨?_, ?_⟩
  · rintro ⟨part, ⟨piece, member, inside⟩, mentioned⟩
    exact ⟨piece, member, part, inside, mentioned⟩
  · rintro ⟨piece, member, part, inside, mentioned⟩
    exact ⟨part, ⟨piece, member, inside⟩, mentioned⟩

theorem parts_object (properties : List (String × Code)) :
    (object properties).parts = object properties :: (properties.map (·.2)).flatMap parts := by
  rw [parts, partsOfEntries_eq, List.flatMap_map]

theorem parts_array (elements : List Code) : (array elements).parts = array elements :: elements.flatMap parts := by
  rw [parts, partsOfAll_eq]

theorem parts_call (callee : Code) (arguments : List Code) :
    (call callee arguments).parts = call callee arguments :: (callee :: arguments).flatMap parts := by
  rw [parts, partsOfAll_eq, List.flatMap_cons]

theorem mem_mentions_call {name : String} {arguments : List Code} :
    m ∈ (call (.identifier name) arguments).mentions ↔ m = .called name ∨ MentionedIn arguments m := by
  rw [mem_mentions (parts_call ..), mentionedIn_cons, or_iff_right (show m ∉ (identifier name).mentions from List.not_mem_nil)]
  exact or_congr_left (by rw [mention?, Option.some.injEq, eq_comm])

theorem mem_mentions_object {properties : List (String × Code)} :
    m ∈ (object properties).mentions ↔ MentionedIn (properties.map (·.2)) m := by
  rw [mem_mentions (parts_object ..)]
  exact or_iff_right nofun

theorem mem_mentions_array {elements : List Code} : m ∈ (array elements).mentions ↔ MentionedIn elements m := by
  rw [mem_mentions (parts_array ..)]
  exact or_iff_right nofun

theorem mentions_arrow (params : List Param) (body : Code) : (arrow params body).mentions = body.mentions := rfl

end Code

namespace Lowering

open Code (MentionedIn mentionedIn_nil mentionedIn_cons mentionedIn_singleton mentionedIn_append)

/-! Nodes of markup and the names that they bring in. -/

mutual
/-- The nodes that are looked at. What stands in an outlet for a slot is not. -/
def reached (config : Config) : Markup → List Markup
  | .element name attributes children => .element name attributes children ::
      if name = config.slotTag ∧ name ≠ config.templateTag then [] else reachedIn config children
  | .text value => [.text value]
  | .expression value => [.expression value]
  | .conditional test body others otherwise => .conditional test body others otherwise ::
      (reachedIn config body ++ (reachedInBranches config others ++ reachedIn config otherwise))
  | .loop item items track body empty => .loop item items track body empty :: (reachedIn config body ++ reachedIn config empty)

def reachedIn (config : Config) : List Markup → List Markup
  | [] => []
  | first :: rest => reached config first ++ reachedIn config rest

def reachedInBranches (config : Config) : List (Branch Markup) → List Markup
  | [] => []
  | ⟨_, body⟩ :: rest => reachedIn config body ++ reachedInBranches config rest
end

/-- The tag of an outlet for a slot. -/
def isOutlet (config : Config) : Markup → Bool
  | .element name _ _ => name ≠ config.templateTag ∧ name = config.slotTag
  | _ => false

/-- The tag of a node that becomes a child component. -/
def childTag? (setting : Setting) : Markup → Option String
  | .element name _ _ =>
    if name ≠ setting.config.templateTag ∧ name ≠ setting.config.slotTag ∧ Entries.contains setting.siblings name = true then some name
    else none
  | _ => none

/-- The tag of a node that becomes an element. -/
def elementTag? (setting : Setting) : Markup → Option String
  | .element name _ _ =>
    if name ≠ setting.config.templateTag ∧ name ≠ setting.config.slotTag ∧ Entries.contains setting.siblings name = false then some name
    else none
  | _ => none

/-- The name of a loop's items. -/
def itemName? : Markup → Option String
  | .loop item _ _ _ _ => item.name?
  | _ => none

/-- The names that a wrapper takes from the context of its slot. -/
def letNames (config : Config) : Markup → List String
  | .element name attributes _ =>
    if name = config.templateTag then attributes.filterMap fun attr => (Name.ofLet? attr.name).filter Text.isIdentifier else []
  | _ => []

/-- A node gives a name to what it holds. -/
def Introduces (config : Config) (node : Markup) (name : String) : Prop := itemName? node = some name ∨ name ∈ letNames config node

/-! Notes. -/

/-- A name for a constant. -/
def Marked (name : String) : Prop := ∃ behind, name = "$e_" ++ behind

/-- What code may mention by what was noted. -/
def Used.Mentions (used : Used) (m : Mention) : Prop :=
  (∃ constructor ∈ used.constructors, m = .called constructor.name) ∨ (∃ entry ∈ used.elements, m = .called entry.2) ∨
    (∃ entry ∈ used.components, m = .called entry.2) ∨ used.slots = true ∧ m = .opened slotsName

/-- What code needs: what it mentions, and the constructor of elements for the constants among it. -/
def Needed (codes : List Code) (m : Mention) : Prop :=
  MentionedIn codes m ∨ m = .called Constructor.element.name ∧ ∃ name, Marked name ∧ MentionedIn codes (.called name)

/-- Notes of what has a name of its own. -/
structure Recorded (setting : Setting) (used : Used) : Prop where
  component : .component ∈ used.constructors
  hoisted : setting.config.hoistElements = false → used.elements = []
  tags : (Entries.names used.elements).Nodup
  constants : (used.elements.map (·.2)).Nodup
  spelled : ∀ entry ∈ used.elements, ∃ behind, entry.2 = Name.ofElement entry.1 ++ behind ∧
    ∀ c ∈ behind.toList, Text.isIdentifierPart c = true
  childTags : (Entries.names used.components).Nodup
  children : ∀ entry ∈ used.components, Entries.contains setting.siblings entry.1 = true ∧ entry.2 = Text.sanitize (Name.ofTag entry.1)

/-- Code whose names are called or looked into, and whose functions bind names that nodes bring in. -/
structure Tidy (config : Config) (nodes : Set Markup) (code : Code) : Prop where
  mentioned : ∀ name, .identifier name ∈ code.parts → .called name ∈ code.mentions ∨ .opened name ∈ code.mentions
  bound : ∀ part ∈ code.parts, ∀ name ∈ part.bound, ∃ node ∈ nodes, Introduces config node name

/-- A walk over some nodes, from notes to notes, that gave some code. -/
structure Walked (setting : Setting) (nodes : Set Markup) (before after : Used) (codes : List Code) : Prop where
  mentions : ∀ m, after.Mentions m ↔ before.Mentions m ∨ Needed codes m
  children : ∀ tag, tag ∈ Entries.names after.components ↔
    tag ∈ Entries.names before.components ∨ ∃ node ∈ nodes, childTag? setting node = some tag
  elements : ∀ tag, tag ∈ Entries.names after.elements ↔ tag ∈ Entries.names before.elements ∨
    setting.config.hoistElements = true ∧ ∃ node ∈ nodes, elementTag? setting node = some tag
  slots : after.slots = true ↔ before.slots = true ∨ ∃ node ∈ nodes, isOutlet setting.config node = true
  tidy : ∀ code ∈ codes, Tidy setting.config nodes code
  recorded : Recorded setting after

/-- An action that walks over some nodes. Where it gives no code it notes nothing. -/
def Walks (setting : Setting) (nodes : Set Markup) (action : Action) : Prop :=
  ∀ ⦃used code after⦄, Recorded setting used → action.run used = .ok (code, after) →
    Walked setting nodes used after code.toList ∧ (code = none → after = used)

variable {setting : Setting} {nodes more : Set Markup} {used before between after : Used} {codes others : List Code} {m : Mention}

theorem recorded_start (setting : Setting) : Recorded setting {} where
  component := List.mem_singleton.2 rfl
  hoisted _ := rfl
  tags := List.nodup_nil
  constants := List.nodup_nil
  spelled _ member := nomatch member
  childTags := List.nodup_nil
  children _ member := nomatch member

theorem Recorded.marked {entry : String × String} (recorded : Recorded setting used) (member : entry ∈ used.elements) : Marked entry.2 := by
  obtain ⟨behind, spelled, _⟩ := recorded.spelled entry member
  exact ⟨Text.sanitize entry.1 ++ behind, by rw [spelled, Name.ofElement, String.append_assoc]⟩

theorem not_needed_nil : ¬ Needed [] m := by
  simp [Needed, mentionedIn_nil]

theorem needed_append : Needed (codes ++ others) m ↔ Needed codes m ∨ Needed others m := by
  simp only [Needed, mentionedIn_append, and_or_left, exists_or]
  exact or_or_or_comm

theorem Tidy.mono {config : Config} {code : Code} (tidy : Tidy config nodes code) (inside : nodes ⊆ more) : Tidy config more code where
  mentioned := tidy.mentioned
  bound part member name bound := (tidy.bound part member name bound).imp fun _ ⟨member, introduces⟩ => ⟨inside member, introduces⟩

/-- Nodes that become neither elements nor child components nor outlets. -/
def Silent (setting : Setting) (node : Markup) : Prop :=
  childTag? setting node = none ∧ elementTag? setting node = none ∧ isOutlet setting.config node = false

theorem Walked.refl (recorded : Recorded setting used) (silent : ∀ node ∈ nodes, Silent setting node) :
    Walked setting nodes used used [] where
  mentions m := (or_iff_left not_needed_nil).symm
  children tag := (or_iff_left fun ⟨node, member, same⟩ => by simp [(silent node member).1] at same).symm
  elements tag := (or_iff_left fun ⟨_, node, member, same⟩ => by simp [(silent node member).2.1] at same).symm
  slots := (or_iff_left fun ⟨node, member, same⟩ => by simp [(silent node member).2.2] at same).symm
  tidy _ member := nomatch member
  recorded := recorded

theorem Walked.trans (first : Walked setting nodes before between codes) (second : Walked setting more between after others) :
    Walked setting (nodes ∪ more) before after (codes ++ others) where
  mentions m := by rw [second.mentions, first.mentions, needed_append, or_assoc]
  children tag := by
    rw [second.children, first.children]
    simp only [Set.mem_union, or_and_right, exists_or, or_assoc]
  elements tag := by
    rw [second.elements, first.elements]
    simp only [Set.mem_union, or_and_right, and_or_left, exists_or, or_assoc]
  slots := by
    rw [second.slots, first.slots]
    simp only [Set.mem_union, or_and_right, exists_or, or_assoc]
  tidy code member := (List.mem_append.1 member).elim
    (fun member => (first.tidy code member).mono Set.subset_union_left)
    (fun member => (second.tidy code member).mono Set.subset_union_right)
  recorded := second.recorded

theorem needed_congr (same : ∀ m, MentionedIn others m ↔ MentionedIn codes m) (m : Mention) : Needed others m ↔ Needed codes m := by
  simp only [Needed, same]

/-- Nodes that nothing becomes of may be walked over besides. -/
theorem Walked.beside (walked : Walked setting nodes before after codes) (silent : ∀ node ∈ more, Silent setting node) :
    Walked setting (nodes ∪ more) before after codes := by
  simpa only [List.append_nil] using walked.trans (.refl walked.recorded silent)

/-- Code is put together to other code that mentions the same names. -/
theorem Walked.wrap (walked : Walked setting nodes before after codes)
    (same : ∀ m, MentionedIn others m ↔ MentionedIn codes m)
    (tidy : (∀ code ∈ codes, Tidy setting.config nodes code) → ∀ code ∈ others, Tidy setting.config nodes code) :
    Walked setting nodes before after others where
  mentions m := by rw [walked.mentions, needed_congr same]
  children := walked.children
  elements := walked.elements
  slots := walked.slots
  tidy := tidy walked.tidy
  recorded := walked.recorded

/-! Forms of code. -/

theorem not_marked (constructor : Constructor) : ¬ Marked constructor.name := by
  rintro ⟨behind, same⟩
  have sizes := congrArg String.toList same
  rw [String.toList_append] at sizes
  cases constructor <;> simp [Constructor.name] at sizes

/-- Calling something that is no constant needs nothing but that. -/
theorem needed_of_plain {name : String} (plain : ¬ Marked name)
    (same : ∀ m, MentionedIn others m ↔ m = .called name ∨ MentionedIn codes m) :
    Needed others m ↔ m = .called name ∨ Needed codes m := by
  have marked : (∃ other, Marked other ∧ MentionedIn others (.called other)) ↔
      ∃ other, Marked other ∧ MentionedIn codes (.called other) := by
    refine exists_congr fun other => and_congr_right fun marked => ?_
    rw [same]
    refine or_iff_right fun called => ?_
    cases called
    exact plain marked
  rw [Needed, marked, same, or_assoc, ← Needed]

theorem needed_of_marked {name : String} (marked : Marked name)
    (same : ∀ m, MentionedIn others m ↔ m = .called name ∨ MentionedIn codes m) :
    Needed others m ↔ m = .called Constructor.element.name ∨ m = .called name ∨ Needed codes m := by
  have called : ∃ other, Marked other ∧ MentionedIn others (.called other) := ⟨name, marked, (same _).2 (.inl rfl)⟩
  rw [Needed, and_iff_left called, same, Needed]
  constructor
  · rintro ((named | mentioned) | element)
    · exact .inr (.inl named)
    · exact .inr (.inr (.inl mentioned))
    · exact .inl element
  · rintro (element | named | mentioned | ⟨element, _⟩)
    · exact .inr element
    · exact .inl (.inl named)
    · exact .inl (.inr mentioned)
    · exact .inr element

theorem needed_construct {constructor : Constructor} {arguments : List Code} :
    Needed [construct constructor arguments] m ↔ m = .called constructor.name ∨ Needed arguments m :=
  needed_of_plain (not_marked constructor) fun _ => mentionedIn_singleton.trans Code.mem_mentions_call

theorem recorded_use (recorded : Recorded setting used) (added : List Constructor) :
    Recorded setting { used with constructors := added ++ used.constructors } :=
  { recorded with component := List.mem_append_right _ recorded.component }

theorem mentions_use {constructor : Constructor} (member : constructor ∈ used.constructors) :
    Used.Mentions { used with constructors := [constructor] ++ used.constructors } m ↔ used.Mentions m := by
  have same : (∃ other ∈ [constructor] ++ used.constructors, m = .called other.name) ↔
      ∃ other ∈ used.constructors, m = .called other.name := by
    simp only [List.singleton_append, List.exists_mem_cons_iff]
    exact or_iff_right_of_imp fun isCalled => ⟨constructor, member, isCalled⟩
  simp only [Used.Mentions, same]

/-- Some constructors are noted, and code is put together that calls them besides. -/
theorem Walked.construct (walked : Walked setting nodes before after codes) (added : List Constructor)
    (needed : ∀ m, Needed others m ↔ (∃ constructor ∈ added, m = .called constructor.name) ∨ Needed codes m)
    (tidy : (∀ code ∈ codes, Tidy setting.config nodes code) → ∀ code ∈ others, Tidy setting.config nodes code) :
    Walked setting nodes before { after with constructors := added ++ after.constructors } others where
  mentions m := by
    have noted : Used.Mentions { after with constructors := added ++ after.constructors } m ↔
        (∃ constructor ∈ added, m = .called constructor.name) ∨ after.Mentions m := by
      simp only [Used.Mentions, List.mem_append, or_and_right, exists_or, or_assoc]
    rw [noted, walked.mentions, needed, or_left_comm]
  children := walked.children
  elements := walked.elements
  slots := walked.slots
  tidy := tidy walked.tidy
  recorded := recorded_use walked.recorded added

theorem tidy_of_parts {config : Config} {code : Code} {inner : List Code} (isParts : code.parts = code :: inner.flatMap Code.parts)
    (noName : ∀ name, code ≠ .identifier name) (bound : ∀ name ∈ code.bound, ∃ node ∈ nodes, Introduces config node name)
    (tidy : ∀ part ∈ inner, Tidy config nodes part) : Tidy config nodes code where
  mentioned name member := by
    rw [isParts, List.mem_cons, List.mem_flatMap] at member
    obtain same | ⟨part, inside, member⟩ := member
    · exact absurd same.symm (noName name)
    · exact ((tidy part inside).mentioned name member).imp (fun called => (Code.mem_mentions isParts).2 (.inr ⟨part, inside, called⟩))
        fun opened => (Code.mem_mentions isParts).2 (.inr ⟨part, inside, opened⟩)
  bound part member := by
    rw [isParts, List.mem_cons, List.mem_flatMap] at member
    obtain rfl | ⟨piece, inside, member⟩ := member
    · exact bound
    · exact (tidy piece inside).bound part member

theorem tidy_object {config : Config} {properties : List (String × Code)}
    (tidy : ∀ code ∈ properties.map (·.2), Tidy config nodes code) : Tidy config nodes (.object properties) :=
  tidy_of_parts (Code.parts_object _) nofun nofun tidy

theorem tidy_array {config : Config} {elements : List Code} (tidy : ∀ code ∈ elements, Tidy config nodes code) :
    Tidy config nodes (.array elements) :=
  tidy_of_parts (Code.parts_array _) nofun nofun tidy

theorem tidy_arrow {config : Config} {params : List Param} {body : Code}
    (bound : ∀ name ∈ params.flatMap Param.names, ∃ node ∈ nodes, Introduces config node name) (tidy : Tidy config nodes body) :
    Tidy config nodes (.arrow params body) :=
  tidy_of_parts (by rw [Code.parts, List.flatMap_singleton]) nofun bound (List.forall_mem_singleton.2 tidy)

theorem tidy_call {config : Config} {name : String} {arguments : List Code} (tidy : ∀ code ∈ arguments, Tidy config nodes code) :
    Tidy config nodes (.call (.identifier name) arguments) where
  mentioned other member := by
    rw [Code.parts_call, List.mem_cons, List.mem_flatMap] at member
    obtain same | ⟨code, inside, member⟩ := member
    · cases same
    obtain rfl | inside := List.mem_cons.1 inside
    · cases List.mem_singleton.1 member
      exact .inl (Code.mem_mentions_call.2 (.inl rfl))
    · exact ((tidy code inside).mentioned other member).imp (fun called => Code.mem_mentions_call.2 (.inr ⟨code, inside, called⟩))
        fun opened => Code.mem_mentions_call.2 (.inr ⟨code, inside, opened⟩)
  bound part member := by
    rw [Code.parts_call, List.mem_cons, List.mem_flatMap] at member
    obtain rfl | ⟨code, inside, member⟩ := member
    · exact nofun
    obtain rfl | inside := List.mem_cons.1 inside
    · cases List.mem_singleton.1 member
      exact nofun
    · exact (tidy code inside).bound part member

/-- Code without names. -/
def Inert (code : Code) : Prop := code.mentions = [] ∧ ∀ config nodes, Tidy config nodes code

theorem inert_literal (value : Literal) : Inert (.literal value) :=
  ⟨rfl, fun _ _ => tidy_of_parts (show _ = _ :: [].flatMap Code.parts from rfl) nofun nofun nofun⟩

theorem inert_host (value : Expression) : Inert (.host value) :=
  ⟨rfl, fun _ _ => tidy_of_parts (show _ = _ :: [].flatMap Code.parts from rfl) nofun nofun nofun⟩

theorem inert_thunk (value : Expression) : Inert (.thunk (.host value)) :=
  ⟨rfl, fun config nodes => tidy_arrow nofun ((inert_host value).2 config nodes)⟩

theorem inert_fixed (attributes : List Attribute) : ∀ entry ∈ attributes.filterMap fixed?, Inert entry.2 := by
  intro entry member
  obtain ⟨⟨name, kind, value⟩, _, same⟩ := List.mem_filterMap.1 member
  cases kind <;> cases value <;> cases same <;> exact inert_literal _

theorem inert_bound (attributes : List Attribute) : ∀ entry ∈ attributes.filterMap bound?, Inert entry.2 := by
  intro entry member
  obtain ⟨⟨name, kind, value⟩, _, same⟩ := List.mem_filterMap.1 member
  cases kind <;> cases value <;> cases same
  exact inert_thunk _

theorem inert_handler (attributes : List Attribute) : ∀ entry ∈ attributes.filterMap handler?, Inert entry.2 := by
  intro entry member
  obtain ⟨⟨name, kind, value⟩, _, same⟩ := List.mem_filterMap.1 member
  cases kind <;> cases value <;> cases same
  exact inert_host _

theorem inert_context (attributes : List Attribute) : ∀ entry ∈ attributes.filterMap slotContext?, Inert entry.2 := by
  intro entry member
  obtain ⟨⟨name, kind, value⟩, _, same⟩ := List.mem_filterMap.1 member
  cases kind <;> cases value <;> cases same
  · exact inert_literal _
  · exact inert_thunk _

theorem inert_object {entries : List (String × Code)} (inert : ∀ entry ∈ entries, Inert entry.2) : Inert (.object entries) := by
  constructor
  · refine List.eq_nil_iff_forall_not_mem.2 fun m member => ?_
    obtain ⟨_, member, mentioned⟩ := Code.mem_mentions_object.1 member
    obtain ⟨entry, inside, rfl⟩ := List.mem_map.1 member
    rw [(inert entry inside).1] at mentioned
    cases mentioned
  · intro config nodes
    exact tidy_object (List.forall_mem_map.2 fun entry member => (inert entry member).2 config nodes)

theorem inert_group {entries : List (String × Code)} (inert : ∀ entry ∈ entries, Inert entry.2) (key : String) :
    ∀ entry ∈ group key entries, Inert entry.2 := by
  rw [group]
  split
  · exact fun _ never => by cases never
  · exact List.forall_mem_singleton.2 (inert_object inert)

theorem mentionedIn_group (key : String) (entries : List (String × Code)) :
    MentionedIn ((group key entries).map (·.2)) m ↔ MentionedIn (entries.map (·.2)) m := by
  rw [group]
  split
  next empty =>
    rw [List.isEmpty_iff.1 empty]
  next => exact mentionedIn_singleton.trans Code.mem_mentions_object

theorem tidy_group {config : Config} {key : String} {entries : List (String × Code)}
    (tidy : ∀ code ∈ entries.map (·.2), Tidy config nodes code) :
    ∀ code ∈ (group key entries).map (·.2), Tidy config nodes code := by
  rw [group]
  split
  next => exact fun _ never => by cases never
  next => exact List.forall_mem_singleton.2 (tidy_object tidy)

/-- Code without names does not count. -/
theorem not_mentionedIn {inert : List Code} (none : ∀ code ∈ inert, code.mentions = []) (m : Mention) : ¬ MentionedIn inert m := by
  rintro ⟨code, member, mentioned⟩
  rw [none code member] at mentioned
  cases mentioned

/-! Siblings. -/

/-- The nodes of several walks. -/
def joined (walks : List (Set Markup)) : Set Markup := {node | ∃ nodes ∈ walks, node ∈ nodes}

theorem joined_nil : joined [] = ∅ := by
  ext
  simp [joined]

theorem joined_cons (nodes : Set Markup) (rest : List (Set Markup)) : joined (nodes :: rest) = nodes ∪ joined rest := by
  ext
  simp [joined]

theorem joined_append (first second : List (Set Markup)) : joined (first ++ second) = joined first ∪ joined second := by
  ext
  simp only [joined, List.mem_append, or_and_right, exists_or, Set.mem_ofPred_eq, Set.mem_union]

variable {walks : List (Set Markup)}

theorem Recorded.walked_nil (recorded : Recorded setting used) : Walked setting ∅ used used [] := .refl recorded nofun

theorem walked_all {actions : List Action} (each : List.Forall₂ (Walks setting) walks actions) {found : List (Option Code)}
    (recorded : Recorded setting used) (done : (actions.mapM id).run used = .ok (found, after)) :
    Walked setting (joined walks) used after (found.filterMap id) ∧ (found.filterMap id = [] → after = used) := by
  induction each generalizing used found with
  | nil =>
    cases done
    rw [joined_nil]
    exact ⟨recorded.walked_nil, fun _ => rfl⟩
  | cons first _ ih =>
    rw [List.mapM_cons] at done
    obtain ⟨code, between, isFirst, done⟩ := exists_of_run_bind done
    obtain ⟨others, later, areOthers, done⟩ := exists_of_run_bind done
    cases done
    obtain ⟨walked, same⟩ := first recorded isFirst
    obtain ⟨walkedRest, sameRest⟩ := ih walked.recorded areOthers
    rw [joined_cons]
    cases code with
    | none => exact ⟨walked.trans walkedRest, fun empty => (sameRest empty).trans (same rfl)⟩
    | some code => exact ⟨walked.trans walkedRest, nofun⟩

theorem walks_siblings {actions : List Action} (each : List.Forall₂ (Walks setting) walks actions) :
    Walks setting (joined walks) (siblings actions) := by
  intro used code after recorded done
  obtain ⟨found, between, areCodes, done⟩ := exists_of_run_bind done
  obtain ⟨walked, same⟩ := walked_all each recorded areCodes
  split at done
  next none =>
    cases done
    rw [none] at walked same
    exact ⟨walked, fun _ => same rfl⟩
  next only one =>
    cases done
    rw [one] at walked
    exact ⟨walked, nofun⟩
  next =>
    obtain ⟨_, _, isUse, done⟩ := exists_of_run_bind done
    cases isUse
    cases done
    refine ⟨walked.construct [.fragment] (fun m => ?_) fun tidy => List.forall_mem_singleton.2 (tidy_call tidy), nofun⟩
    rw [Option.toList_some, needed_construct]
    simp

/-! Conditionals. -/

theorem walked_branches {actions : List (Expression × Action)}
    (each : List.Forall₂ (fun nodes action => Walks setting nodes action.2) walks actions)
    {found : List (Expression × Option Code)} (recorded : Recorded setting used)
    (done : (actions.mapM fun branch => (do return (branch.1, ← branch.2) : Lower (Expression × Option Code))).run used =
      .ok (found, after)) :
    Walked setting (joined walks) used after (found.filterMap (·.2)) ∧ (found.filterMap (·.2) = [] → after = used) := by
  induction each generalizing used found with
  | nil =>
    cases done
    rw [joined_nil]
    exact ⟨recorded.walked_nil, fun _ => rfl⟩
  | cons first _ ih =>
    rw [List.mapM_cons] at done
    obtain ⟨branch, between, isFirst, done⟩ := exists_of_run_bind done
    obtain ⟨code, _, isCode, isFirst⟩ := exists_of_run_bind isFirst
    cases isFirst
    obtain ⟨others, later, areOthers, done⟩ := exists_of_run_bind done
    cases done
    obtain ⟨walked, same⟩ := first recorded isCode
    obtain ⟨walkedRest, sameRest⟩ := ih walked.recorded areOthers
    rw [joined_cons]
    cases code with
    | none => exact ⟨walked.trans walkedRest, fun empty => (sameRest empty).trans (same rfl)⟩
    | some code => exact ⟨walked.trans walkedRest, nofun⟩

/-- The branches that are dropped have no code. -/
theorem filterMap_dropEmptyEnd (branches : List (Expression × Option Code)) :
    (dropEmptyEnd branches).filterMap (·.2) = branches.filterMap (·.2) := by
  have dropped (branches : List (Expression × Option Code)) :
      (branches.dropWhile fun branch => branch.2.isNone).filterMap (·.2) = branches.filterMap (·.2) := by
    induction branches with
    | nil => rfl
    | cons branch rest ih =>
      obtain ⟨test, code⟩ := branch
      cases code <;> simp [ih]
  rw [dropEmptyEnd, List.filterMap_reverse, dropped, List.filterMap_reverse, List.reverse_reverse]

theorem mentionedIn_branches (branches : List (Expression × Option Code)) (m : Mention) :
    MentionedIn (branches.map branchCode) m ↔ MentionedIn (branches.filterMap (·.2)) m := by
  induction branches with
  | nil => exact Iff.rfl
  | cons branch rest ih =>
    obtain ⟨test, code⟩ := branch
    have noTest : m ∉ (Code.thunk (.host test)).mentions := List.not_mem_nil
    rw [List.map_cons, mentionedIn_cons, ih, branchCode, Code.mem_mentions_array, mentionedIn_cons, or_iff_right noTest,
      mentionedIn_singleton]
    cases code with
    | none => exact or_iff_right (show m ∉ Code.null.mentions from List.not_mem_nil)
    | some code => exact mentionedIn_cons.symm

theorem tidy_branches {config : Config} {branches : List (Expression × Option Code)}
    (tidy : ∀ code ∈ branches.filterMap (·.2), Tidy config nodes code) : ∀ code ∈ branches.map branchCode, Tidy config nodes code := by
  refine List.forall_mem_map.2 fun branch member => ?_
  obtain ⟨test, code⟩ := branch
  refine tidy_array (List.forall_mem_cons.2 ⟨(inert_thunk test).2 _ _, List.forall_mem_singleton.2 ?_⟩)
  cases code with
  | none => exact (inert_literal .null).2 _ _
  | some code => exact tidy code (List.mem_filterMap.2 ⟨_, member, rfl⟩)

theorem walks_conditional {actions : List (Expression × Action)} {last : Action}
    (each : List.Forall₂ (fun nodes action => Walks setting nodes action.2) walks actions) (walksLast : Walks setting nodes last) :
    Walks setting (joined walks ∪ nodes) (conditional actions last) := by
  intro used code after recorded done
  obtain ⟨found, between, areCodes, done⟩ := exists_of_run_bind done
  obtain ⟨lastCode, later, isLast, done⟩ := exists_of_run_bind done
  obtain ⟨walked, same⟩ := walked_branches each recorded areCodes
  obtain ⟨walkedLast, sameLast⟩ := walksLast walked.recorded isLast
  have walked := walked.trans walkedLast
  have kept : (if lastCode.isNone then dropEmptyEnd found else found).filterMap (·.2) = found.filterMap (·.2) := by
    split
    · exact filterMap_dropEmptyEnd found
    · rfl
  rw [← kept] at walked same
  dsimp only at done
  generalize (if lastCode.isNone then dropEmptyEnd found else found) = branches at done walked same
  split at done
  next empty =>
    cases done
    obtain ⟨noBranch, noLast⟩ := Bool.and_eq_true_iff.1 empty
    obtain rfl := List.isEmpty_iff.1 noBranch
    obtain rfl := Option.isNone_iff_eq_none.1 noLast
    exact ⟨walked, fun _ => (sameLast rfl).trans (same rfl)⟩
  next =>
    obtain ⟨_, _, isUse, done⟩ := exists_of_run_bind done
    cases isUse
    cases done
    have properties : (("ifs", Code.array (branches.map branchCode)) :: (lastCode.map ("otherwise", ·)).toList).map (·.2) =
        .array (branches.map branchCode) :: lastCode.toList := by
      cases lastCode <;> rfl
    refine ⟨walked.construct [.conditional] (fun m => ?_) fun tidy => ?_, nofun⟩
    · rw [Option.toList_some, needed_construct]
      refine or_congr (by simp) (needed_congr (fun m => ?_) m)
      rw [mentionedIn_singleton, Code.mem_mentions_object, properties, mentionedIn_cons, Code.mem_mentions_array, mentionedIn_branches,
        mentionedIn_append]
    · refine List.forall_mem_singleton.2 (tidy_call (List.forall_mem_singleton.2 (tidy_object ?_)))
      obtain ⟨tidyBranches, tidyLast⟩ := List.forall_mem_append.1 tidy
      rw [properties]
      exact List.forall_mem_cons.2 ⟨tidy_array (tidy_branches tidyBranches), tidyLast⟩

/-! Loops. -/

theorem walks_loop {item items track : Expression} {body empty : Action} {self : Markup} (silent : Silent setting self)
    (introduces : ∀ name, item.name? = some name → Introduces setting.config self name)
    (walks : Walks setting nodes body) (walksEmpty : Walks setting more empty) :
    Walks setting (nodes ∪ more ∪ {self}) (loop item items track body empty) := by
  intro used code after recorded done
  rw [loop] at done
  split at done
  next => cases done
  next name isName =>
    obtain ⟨bodyCode, between, isBody, done⟩ := exists_of_run_bind done
    obtain ⟨emptyCode, later, isEmpty, done⟩ := exists_of_run_bind done
    obtain ⟨walked, same⟩ := walks recorded isBody
    obtain ⟨walkedEmpty, sameEmpty⟩ := walksEmpty walked.recorded isEmpty
    have alone : ∀ node ∈ ({self} : Set Markup), Silent setting node := by
      rintro _ rfl
      exact silent
    have walked := (walked.trans walkedEmpty).beside alone
    split at done
    next nothing =>
      cases done
      obtain ⟨noBody, noEmpty⟩ := Bool.and_eq_true_iff.1 nothing
      obtain rfl := Option.isNone_iff_eq_none.1 noBody
      obtain rfl := Option.isNone_iff_eq_none.1 noEmpty
      exact ⟨walked, fun _ => (sameEmpty rfl).trans (same rfl)⟩
    next =>
      obtain ⟨_, _, isUse, done⟩ := exists_of_run_bind done
      cases isUse
      have properties : ([("items", Code.thunk (.host items)), ("trackBy", .arrow [.name name] (.host track))] ++
          (emptyCode.map ("empty", ·)).toList).map (·.2) =
          [.thunk (.host items), .arrow [.name name] (.host track)] ++ emptyCode.toList := by
        cases emptyCode <;> rfl
      have bound : ∀ other ∈ [Param.name name].flatMap Param.names, 
          ∃ node ∈ nodes ∪ more ∪ {self}, Introduces setting.config node other :=
        List.forall_mem_singleton.2 ⟨self, .inr rfl, introduces name isName⟩
      have tidyLoop {inner : Code} (tidyInner : Tidy setting.config (nodes ∪ more ∪ {self}) inner)
          (tidyEmpty : ∀ code ∈ emptyCode.toList, Tidy setting.config (nodes ∪ more ∪ {self}) code) :
          Tidy setting.config (nodes ∪ more ∪ {self}) (Lowering.construct .loop [.object ([("items", .thunk (.host items)),
            ("trackBy", .arrow [.name name] (.host track))] ++ (emptyCode.map ("empty", ·)).toList), .arrow [.name name] inner]) := by
        refine tidy_call (List.forall_mem_cons.2 ⟨tidy_object ?_, List.forall_mem_singleton.2 (tidy_arrow bound tidyInner)⟩)
        rw [properties]
        exact List.forall_mem_append.2 ⟨List.forall_mem_cons.2 ⟨(inert_thunk items).2 _ _,
          List.forall_mem_singleton.2 (tidy_arrow bound ((inert_host track).2 _ _))⟩, tidyEmpty⟩
      have mentionsLoop (inner : Code) (m : Mention) : MentionedIn [.object ([("items", .thunk (.host items)),
            ("trackBy", .arrow [.name name] (.host track))] ++ (emptyCode.map ("empty", ·)).toList), .arrow [.name name] inner] m ↔
          MentionedIn ([inner] ++ emptyCode.toList) m := by
        rw [mentionedIn_cons, mentionedIn_singleton, Code.mem_mentions_object, properties, Code.mentions_arrow, mentionedIn_append,
          mentionedIn_append, mentionedIn_singleton, or_comm]
        refine or_congr_right (or_iff_right (not_mentionedIn ?_ m))
        exact List.forall_mem_cons.2 ⟨rfl, List.forall_mem_singleton.2 rfl⟩
      dsimp only at done
      split at done
      next noBody =>
        obtain ⟨_, _, isUse, done⟩ := exists_of_run_bind done
        cases isUse
        cases done
        obtain rfl := Option.isNone_iff_eq_none.1 noBody
        refine ⟨walked.construct [.fragment, .loop] (fun m => ?_) fun tidy =>
          List.forall_mem_singleton.2 (tidyLoop (tidy_call (fun _ never => by cases never)) tidy), fun never => by cases never⟩
        rw [Option.toList_some, needed_construct, needed_congr (mentionsLoop _), needed_append, Option.getD_none, needed_construct,
          or_iff_left not_needed_nil, Option.toList_none, List.nil_append]
        simp only [List.mem_cons, List.not_mem_nil, or_false, exists_eq_or_imp, exists_eq_left, or_assoc, or_left_comm]
      next someBody =>
        cases done
        obtain _ | inner := bodyCode
        · exact absurd rfl someBody
        refine ⟨walked.construct [.loop] (fun m => ?_) fun tidy => ?_, fun never => by cases never⟩
        · rw [Option.toList_some, needed_construct, needed_congr (mentionsLoop _), Option.getD_some, Option.toList_some]
          simp only [List.mem_singleton, exists_eq_left]
        · obtain ⟨tidyInner, tidyEmpty⟩ := List.forall_mem_append.1 tidy
          exact List.forall_mem_singleton.2 (tidyLoop (tidyInner inner (List.mem_singleton_self _)) tidyEmpty)

/-! Texts and outlets. -/

theorem walks_text {value : String} (silent : ∀ node ∈ nodes, Silent setting node) : Walks setting nodes (text value) := by
  intro used code after recorded done
  rw [text] at done
  split at done
  next =>
    cases done
    exact ⟨.refl recorded silent, fun _ => rfl⟩
  next =>
    obtain ⟨_, _, isUse, done⟩ := exists_of_run_bind done
    cases isUse
    cases done
    refine ⟨(Walked.refl recorded silent).construct [.text] (fun m => ?_) fun _ => List.forall_mem_singleton.2 (tidy_call ?_),
      fun never => by cases never⟩
    · rw [Option.toList_some, needed_construct]
      refine or_congr (by simp) (needed_congr (fun m => ?_) m)
      exact iff_of_false (not_mentionedIn (List.forall_mem_singleton.2 rfl) m) mentionedIn_nil
    · exact List.forall_mem_singleton.2 ((inert_literal _).2 _ _)

theorem walks_interpolation {value : Expression} (silent : ∀ node ∈ nodes, Silent setting node) :
    Walks setting nodes (interpolation value) := by
  intro used code after recorded done
  obtain ⟨_, _, isUse, done⟩ := exists_of_run_bind done
  cases isUse
  cases done
  refine ⟨(Walked.refl recorded silent).construct [.text] (fun m => ?_) fun _ => List.forall_mem_singleton.2 (tidy_call ?_), nofun⟩
  · rw [Option.toList_some, needed_construct]
    refine or_congr (by simp) (needed_congr (fun m => ?_) m)
    exact iff_of_false (not_mentionedIn (List.forall_mem_singleton.2 rfl) m) mentionedIn_nil
  · exact List.forall_mem_singleton.2 ((inert_thunk _).2 _ _)

theorem walks_slot {attributes : List Attribute} {self : Markup} (outlet : isOutlet setting.config self = true)
    (noChild : childTag? setting self = none) (noElement : elementTag? setting self = none) :
    Walks setting {self} (slot attributes) := by
  intro used code after recorded done
  obtain ⟨_, _, isUse, done⟩ := exists_of_run_bind done
  cases isUse
  cases done
  have inert : ∀ entry ∈ (attributes.filter (·.name != "name")).filterMap slotContext?, Inert entry.2 := inert_context _
  generalize (attributes.filter (·.name != "name")).filterMap slotContext? = context at inert
  generalize ((attribute? attributes "name").bind Attribute.text?).getD "default" = name
  have opened (m : Mention) : m ∈ (Code.call (.index (.identifier slotsName) (.string name)) [.object context]).mentions ↔
      m = .opened slotsName := by
    rw [Code.mem_mentions (Code.parts_call ..), mentionedIn_cons, mentionedIn_singleton, (inert_object inert).1]
    simp [show Code.mention? (.call (.index (.identifier slotsName) (.string name)) [.object context]) = none from rfl,
      show (Code.index (.identifier slotsName) (.string name)).mentions = [.opened slotsName] from rfl]
  have needed (m : Mention) : Needed [.call (.index (.identifier slotsName) (.string name)) [.object context]] m ↔
      m = .opened slotsName := by
    simp [Needed, mentionedIn_singleton, opened]
  refine ⟨⟨fun m => ?_, fun tag => (or_iff_left ?_).symm, fun tag => (or_iff_left ?_).symm, ?_, List.forall_mem_singleton.2 ⟨?_, ?_⟩,
    { recorded with }⟩, fun never => by cases never⟩
  · rw [Option.toList_some, needed]
    simp only [Used.Mentions, or_assoc]
    refine or_congr_right (or_congr_right (or_congr_right ?_))
    simp only [true_and]
    exact (or_iff_right_of_imp And.right).symm
  · simp [noChild]
  · simp [noElement]
  · simp [outlet]
  · intro other member
    rw [opened, opened]
    rw [Code.parts_call, List.mem_cons, List.mem_flatMap] at member
    obtain same | ⟨part, inside, member⟩ := member
    · cases same
    obtain rfl | inside := List.mem_cons.1 inside
    · simp only [Code.parts, Code.string, List.mem_cons, List.mem_append, List.not_mem_nil, or_false] at member
      obtain same | same | same := member <;> cases same
      exact .inr rfl
    · cases List.mem_singleton.1 inside
      obtain mentioned | mentioned := ((inert_object inert).2 setting.config {self}).mentioned other member <;>
      · rw [(inert_object inert).1] at mentioned
        cases mentioned
  · intro part member
    rw [Code.parts_call, List.mem_cons, List.mem_flatMap] at member
    obtain rfl | ⟨piece, inside, member⟩ := member
    · exact fun _ never => by cases never
    obtain rfl | inside := List.mem_cons.1 inside
    · simp only [Code.parts, Code.string, List.mem_cons, List.mem_append, List.not_mem_nil, or_false] at member
      obtain rfl | rfl | rfl := member <;> exact fun _ never => by cases never
    · cases List.mem_singleton.1 inside
      exact ((inert_object inert).2 setting.config {self}).bound part member

/-! Elements. -/

theorem mem_names {α : Type} {entries : Entries α} {name : String} : name ∈ Entries.names entries ↔ (Entries.get? entries name).isSome :=
  Entries.isSome_get?_iff.symm

/-- The constant for a tag is noted, and so is the constructor that makes it. -/
theorem run_elementVariable_named {tag name : String} (hoists : setting.config.hoistElements = true) (recorded : Recorded setting used)
    (done : (elementVariable tag).run { used with constructors := .element :: used.constructors } = .ok (name, between)) :
    Recorded setting between ∧ Marked name ∧
      (∀ m, between.Mentions m ↔ used.Mentions m ∨ m = .called Constructor.element.name ∨ m = .called name) ∧
      (∀ other, other ∈ Entries.names between.elements ↔ other ∈ Entries.names used.elements ∨ other = tag) ∧
      between.components = used.components ∧ between.slots = used.slots := by
  obtain ⟨_, _, isUsed, done⟩ := exists_of_run_bind done
  cases isUsed
  dsimp only at done
  split at done
  next name found =>
    cases done
    have member := Entries.mem_of_get? found
    refine ⟨recorded_use recorded [.element], recorded.marked member, fun m => ?_, fun other => ?_, rfl, rfl⟩
    · have noted : m = .called name → used.Mentions m := fun same => .inr (.inl ⟨_, member, same⟩)
      simp only [Used.Mentions, List.mem_cons, or_and_right, exists_or, exists_eq_left] at noted ⊢
      grind
    · refine (or_iff_left_of_imp ?_).symm
      rintro rfl
      exact mem_names.2 (by rw [found]; rfl)
  next fresh =>
    obtain ⟨_, _, isSet, done⟩ := exists_of_run_bind done
    cases isSet
    cases done
    have added := Entries.put_of_fresh fresh (freshVariable (used.elements.map (·.2)) (Name.ofElement tag))
    obtain ⟨behind, isFront, numbered⟩ := freshVariable_front (used.elements.map (·.2)) (Name.ofElement tag)
    have absent := freshVariable_notMem (used.elements.map (·.2)) (Name.ofElement tag)
    generalize freshVariable (used.elements.map (·.2)) (Name.ofElement tag) = name at added isFront absent
    have marked : Marked name := ⟨Text.sanitize tag ++ behind, by rw [isFront, Name.ofElement, String.append_assoc]⟩
    refine ⟨?_, marked, fun m => ?_, fun other => ?_, rfl, rfl⟩
    · refine { recorded_use recorded [.element] with
        hoisted := fun off => absurd (hoists.symm.trans off) (by decide)
        tags := Entries.nodup_put recorded.tags tag name
        constants := ?_
        spelled := ?_ } <;> rw [added]
      · rw [List.map_append, List.map_singleton, List.nodup_append_comm]
        exact List.nodup_cons.2 ⟨absent, recorded.constants⟩
      · exact List.forall_mem_append.2 ⟨recorded.spelled, List.forall_mem_singleton.2 ⟨behind, isFront, numbered⟩⟩
    · simp only [Used.Mentions, added, List.mem_cons, List.mem_append, List.not_mem_nil, or_false, or_and_right, exists_or, exists_eq_left]
      grind
    · rw [added]
      simp [Entries.names]

/-- An element is called by its constant, or by its constructor. -/
theorem walked_elementCode {tag : String} {callee : Code} {self : Markup} {arguments : List Code}
    (isElement : elementTag? setting self = some tag)
    (noChild : childTag? setting self = none) (noOutlet : isOutlet setting.config self = false) (recorded : Recorded setting used)
    (isCallee : (elementCode setting tag).run { used with constructors := .element :: used.constructors } = .ok (callee, between)) :
    Recorded setting between ∧ ∀ {nodes after codes}, Walked setting nodes between after codes →
      (∀ m, MentionedIn arguments m ↔ MentionedIn codes m) →
      ((∀ code ∈ codes, Tidy setting.config nodes code) → ∀ code ∈ arguments, Tidy setting.config nodes code) →
      Walked setting (nodes ∪ {self}) used after [.call callee arguments] := by
  rw [elementCode] at isCallee
  split at isCallee
  next hoists =>
    rw [StateT.run_map] at isCallee
    cases isVariable : (elementVariable tag).run { used with constructors := .element :: used.constructors } with
    | error problem =>
      rw [isVariable] at isCallee
      cases isCallee
    | ok found =>
      obtain ⟨name, _⟩ := found
      rw [isVariable] at isCallee
      cases isCallee
      obtain ⟨recordedCallee, marked, noted, tags, components, slots⟩ := run_elementVariable_named hoists recorded isVariable
      refine ⟨recordedCallee, fun walked same tidy => ⟨fun m => ?_, fun other => ?_, fun other => ?_, ?_, ?_, walked.recorded⟩⟩
      · rw [walked.mentions, noted, needed_of_marked marked fun _ =>
          mentionedIn_singleton.trans (Code.mem_mentions_call.trans (or_congr_right (same _)))]
        simp only [or_assoc]
      · rw [walked.children, components]
        simp [noChild]
      · rw [walked.elements, tags]
        simp [isElement, hoists, or_assoc, eq_comm, or_comm, or_left_comm]
      · rw [walked.slots, slots]
        simp [noOutlet]
      · exact List.forall_mem_singleton.2 (tidy_call fun code member => (tidy walked.tidy code member).mono Set.subset_union_left)
  next flat =>
    cases isCallee
    refine ⟨recorded_use recorded [.element], fun walked same tidy =>
      ⟨fun m => ?_, fun other => ?_, fun other => ?_, ?_, ?_, walked.recorded⟩⟩
    · have mentions (m : Mention) : MentionedIn [.call (construct .element [.string tag]) arguments] m ↔
          m = .called Constructor.element.name ∨ MentionedIn arguments m := by
        rw [mentionedIn_singleton, Code.mem_mentions (Code.parts_call ..), mentionedIn_cons]
        have noString : ¬ MentionedIn [Code.string tag] m := not_mentionedIn (List.forall_mem_singleton.2 rfl) m
        simp only [construct, Code.mem_mentions_call, or_iff_left noString]
        exact or_iff_right (fun never => by cases never)
      rw [walked.mentions, needed_of_plain (not_marked .element) fun m => (mentions m).trans (or_congr_right (same m))]
      simp only [Used.Mentions, List.mem_cons, or_and_right, exists_or, exists_eq_left]
      grind
    · rw [walked.children]
      simp [noChild]
    · rw [walked.elements]
      simp [flat]
    · rw [walked.slots]
      simp [noOutlet]
    · have tidyArguments : ∀ code ∈ arguments, Tidy setting.config (_ ∪ {self}) code := fun code member =>
        (tidy walked.tidy code member).mono Set.subset_union_left
      refine List.forall_mem_singleton.2 (tidy_of_parts (Code.parts_call ..) (fun _ never => by cases never)
        (fun _ never => by cases never) (List.forall_mem_cons.2 ⟨?_, tidyArguments⟩))
      exact tidy_call (List.forall_mem_singleton.2 ((inert_literal _).2 _ _))

/-- Entries without names stand before code that has some. -/
theorem mentionedIn_properties {entries : List (String × Code)} (inert : ∀ entry ∈ entries, Inert entry.2) (rest : List (String × Code)) :
    MentionedIn ((entries ++ rest).map (·.2)) m ↔ MentionedIn (rest.map (·.2)) m := by
  rw [List.map_append, mentionedIn_append, or_iff_right (not_mentionedIn (List.forall_mem_map.2 fun entry member =>
    (inert entry member).1) m)]

theorem walks_element {tag : String} {attributes : List Attribute} {action : Action} {self : Markup}
    (isElement : elementTag? setting self = some tag)
    (noChild : childTag? setting self = none) (noOutlet : isOutlet setting.config self = false) (walks : Walks setting nodes action) :
    Walks setting (nodes ∪ {self}) (element setting tag attributes action) := by
  intro used code after recorded done
  obtain ⟨_, _, isUse, done⟩ := exists_of_run_bind done
  cases isUse
  obtain ⟨callee, between, isCallee, done⟩ := exists_of_run_bind done
  obtain ⟨child, later, isChild, done⟩ := exists_of_run_bind done
  cases done
  have inert : ∀ entry ∈ group "attrs" (groups attributes).attributes ++ group "props" (groups attributes).properties ++
      group "events" (groups attributes).events, Inert entry.2 :=
    List.forall_mem_append.2 ⟨List.forall_mem_append.2 ⟨inert_group (inert_fixed _) _, inert_group (inert_bound _) _⟩,
      inert_group (inert_handler _) _⟩
  have values : ((child.map ("child", ·)).toList).map (·.2) = child.toList := by
    cases child <;> rfl
  obtain ⟨recordedCallee, calls⟩ := walked_elementCode isElement noChild noOutlet recorded isCallee
  obtain ⟨walked, _⟩ := walks recordedCallee isChild
  refine ⟨calls walked (fun m => ?_) fun tidy => ?_, nofun⟩
  · rw [← values, ← mentionedIn_properties inert]
    split
    next empty =>
      rw [List.isEmpty_iff.1 empty]
      exact Iff.rfl
    next => exact mentionedIn_singleton.trans Code.mem_mentions_object
  · split
    next => exact nofun
    next =>
      refine List.forall_mem_singleton.2 (tidy_object ?_)
      rw [List.map_append, values]
      exact List.forall_mem_append.2 ⟨List.forall_mem_map.2 fun entry member => (inert entry member).2 _ _, tidy⟩

/-! Components. -/

theorem not_marked_ofTag {tag : String} (parts : ∀ c ∈ tag.toList, Text.isTagPart c = true) :
    ¬ Marked (Text.sanitize (Name.ofTag tag)) := by
  rintro ⟨behind, same⟩
  refine (sanitize_ofTag parts).1 ?_
  rw [same, String.toList_append]
  exact List.mem_append_left _ (by decide)

/-- A child component is noted under the variable for its tag. -/
theorem run_componentVariable_named {tag name : String} (known : Entries.contains setting.siblings tag = true)
    (recorded : Recorded setting used)
    (done : (componentVariable tag).run used = .ok (name, between)) :
    Recorded setting between ∧ name = Text.sanitize (Name.ofTag tag) ∧ (∀ m, between.Mentions m ↔ used.Mentions m ∨ m = .called name) ∧
      (∀ other, other ∈ Entries.names between.components ↔ other ∈ Entries.names used.components ∨ other = tag) ∧
      between.elements = used.elements ∧ between.slots = used.slots := by
  obtain ⟨_, _, isUsed, done⟩ := exists_of_run_bind done
  cases isUsed
  split at done
  next name found =>
    cases done
    have member := Entries.mem_of_get? found
    refine ⟨recorded, (recorded.children _ member).2, fun m => (or_iff_left_of_imp fun same => ?_).symm, fun other =>
      (or_iff_left_of_imp ?_).symm,
      rfl, rfl⟩
    · exact .inr (.inr (.inl ⟨_, member, same⟩))
    · rintro rfl
      exact mem_names.2 (by rw [found]; rfl)
  next fresh =>
    obtain ⟨_, _, isSet, done⟩ := exists_of_run_bind done
    cases isSet
    cases done
    have added := Entries.put_of_fresh fresh (Text.sanitize (Name.ofTag tag))
    refine ⟨{ recorded with
      childTags := Entries.nodup_put recorded.childTags tag _
      children := ?_ }, rfl, fun m => ?_, fun other => ?_, rfl, rfl⟩
    · rw [added]
      exact List.forall_mem_append.2 ⟨recorded.children, List.forall_mem_singleton.2 ⟨known, rfl⟩⟩
    · simp only [Used.Mentions, added, List.mem_append, List.mem_singleton, or_and_right, exists_or, exists_eq_left]
      grind
    · rw [added]
      simp [Entries.names]

/-- What is routed to a slot comes of some nodes, and they bring in the names that it takes from the context. -/
def Carries (setting : Setting) (nodes : Set Markup) (routed : Routed) : Prop :=
  ∃ walks wrappers, List.Forall₂ (Walks setting) walks routed.actions ∧ nodes = joined walks ∪ wrappers ∧
    (∀ node ∈ wrappers, Silent setting node) ∧
    ∀ binding ∈ routed.bindings, ∃ node ∈ wrappers, Introduces setting.config node binding.2

/-- The slots of a component carry what comes of its children. -/
inductive CarriesAll (setting : Setting) : Set Markup → Entries Routed → Prop where
  | nil : CarriesAll setting ∅ []
  | cons {nodes rest : Set Markup} {name : String} {routed : Routed} {slots : Entries Routed} (first : Carries setting nodes routed)
      (others : CarriesAll setting rest slots) : CarriesAll setting (nodes ∪ rest) ((name, routed) :: slots)

theorem Carries.merge {first second : Routed} (carries : Carries setting nodes first)
    (carriesMore : Carries setting more second) (slot : String) :
    Carries setting (nodes ∪ more) ⟨slot, first.actions ++ second.actions, first.bindings ++ second.bindings⟩ := by
  obtain ⟨walks, wrappers, each, rfl, silent, brought⟩ := carries
  obtain ⟨walksMore, wrappersMore, eachMore, rfl, silentMore, broughtMore⟩ := carriesMore
  refine ⟨walks ++ walksMore, wrappers ∪ wrappersMore, List.rel_append each eachMore, ?_, ?_, ?_⟩
  · rw [joined_append, Set.union_union_union_comm]
  · exact fun node member => member.elim (silent node) (silentMore node)
  · refine List.forall_mem_append.2 ⟨fun binding member => ?_, fun binding member => ?_⟩
    · exact (brought binding member).imp fun _ found => ⟨.inl found.1, found.2⟩
    · exact (broughtMore binding member).imp fun _ found => ⟨.inr found.1, found.2⟩

theorem addRouted_nil (routed : Routed) : addRouted [] routed = [(routed.slot, routed)] := rfl

theorem addRouted_cons (head : String) (old : Routed) (rest : Entries Routed) (routed : Routed) :
    addRouted ((head, old) :: rest) routed =
      if head = routed.slot then (routed.slot, ⟨routed.slot, old.actions ++ routed.actions, old.bindings ++ routed.bindings⟩) :: rest
      else (head, old) :: addRouted rest routed := by
  rw [addRouted, addRouted, Entries.get?_cons]
  by_cases same : head = routed.slot
  · rw [if_pos same.symm, if_pos same]
    simp only [Entries.put, if_pos same]
  · rw [if_neg (Ne.symm same), if_neg same]
    split
    · rw [Entries.put, if_neg same]
    · rw [Entries.put, if_neg same]

theorem CarriesAll.add {slots : Entries Routed} {routed : Routed} (all : CarriesAll setting nodes slots)
    (carries : Carries setting more routed) :
    CarriesAll setting (nodes ∪ more) (addRouted slots routed) := by
  induction all with
  | nil =>
    rw [addRouted_nil, Set.union_comm]
    exact .cons carries .nil
  | @cons nodes rest name old slots first others ih =>
    rw [addRouted_cons]
    split
    · rw [Set.union_right_comm]
      exact .cons (first.merge carries _) others
    · rw [Set.union_assoc]
      exact .cons first ih

/-- A route that leads what comes of some nodes to a slot. -/
def Routes (setting : Setting) (nodes : Set Markup) (route : Except LoweringError Routed) : Prop :=
  ∀ routed, route = .ok routed → Carries setting nodes routed

theorem carriesAll_gather {routes : List (Except LoweringError Routed)} {start slots : Entries Routed}
    (each : List.Forall₂ (Routes setting) walks routes) (all : CarriesAll setting nodes start)
    (gathered : gather start routes = .ok slots) :
    CarriesAll setting (nodes ∪ joined walks) slots := by
  induction each generalizing start nodes with
  | nil =>
    cases gathered
    rwa [joined_nil, Set.union_empty]
  | @cons more route _ _ first _ ih =>
    cases route with
    | error problem => cases gathered
    | ok routed =>
      rw [joined_cons, ← Set.union_assoc]
      exact ih (all.add (first routed rfl)) gathered

theorem walked_slotFunction {routed : Routed} {function : Option (String × Code)} (carries : Carries setting nodes routed)
    (recorded : Recorded setting used) (done : (slotFunction routed).run used = .ok (function, after)) :
    Walked setting nodes used after (function.toList.map (·.2)) := by
  obtain ⟨walks, wrappers, each, rfl, silent, brought⟩ := carries
  obtain ⟨code, between, isCode, done⟩ := exists_of_run_bind done
  obtain ⟨walked, _⟩ := walks_siblings each recorded isCode
  have walked := walked.beside silent
  cases code with
  | none =>
    cases done
    exact walked
  | some body =>
    cases done
    refine walked.wrap (fun m => ?_) fun tidy => ?_
    · show MentionedIn [.arrow _ body] m ↔ MentionedIn [body] m
      rw [mentionedIn_singleton, mentionedIn_singleton, Code.mentions_arrow]
    · refine List.forall_mem_singleton.2 (tidy_arrow ?_ (tidy body (List.mem_singleton_self _)))
      split
      · exact nofun
      · intro name member
        rw [List.flatMap_singleton, Param.names] at member
        obtain ⟨binding, inside, rfl⟩ := List.mem_map.1 member
        exact (brought binding inside).imp fun _ found => ⟨.inr found.1, found.2⟩

theorem walked_slotFunctions {slots : Entries Routed} {functions : List (Option (String × Code))} (all : CarriesAll setting nodes slots)
    (recorded : Recorded setting used) (done : (slots.mapM fun entry => slotFunction entry.2).run used = .ok (functions, after)) :
    Walked setting nodes used after ((functions.filterMap id).map (·.2)) := by
  induction all generalizing used functions with
  | nil =>
    cases done
    exact recorded.walked_nil
  | cons first _ ih =>
    rw [List.mapM_cons] at done
    obtain ⟨function, between, isFirst, done⟩ := exists_of_run_bind done
    obtain ⟨others, later, areOthers, done⟩ := exists_of_run_bind done
    cases done
    have walked := walked_slotFunction first recorded isFirst
    have walkedRest := ih walked.recorded areOthers
    cases function <;> exact walked.trans walkedRest

theorem walks_component {tag : String} {attributes : List Attribute} {routes : List (Except LoweringError Routed)} {self : Markup}
    (isChild : childTag? setting self = some tag) (known : Entries.contains setting.siblings tag = true)
    (parts : ∀ c ∈ tag.toList, Text.isTagPart c = true) (noElement : elementTag? setting self = none)
    (noOutlet : isOutlet setting.config self = false) (each : List.Forall₂ (Routes setting) walks routes) :
    Walks setting (joined walks ∪ {self}) (component tag attributes routes) := by
  intro used code after recorded done
  obtain ⟨_, _, isUse, done⟩ := exists_of_run_bind done
  cases isUse
  obtain ⟨callee, between, isCallee, done⟩ := exists_of_run_bind done
  obtain ⟨slots, _, isGathered, done⟩ := exists_of_run_bind done
  obtain ⟨functions, later, areFunctions, done⟩ := exists_of_run_bind done
  cases done
  have gathered := (run_gather [] routes between).symm.trans isGathered
  cases isSlots : gather [] routes with
  | error problem =>
    rw [isSlots] at gathered
    cases gathered
  | ok slots =>
    rw [isSlots] at gathered
    cases gathered
    obtain ⟨recordedCallee, isName, noted, tags, elements, slotsSame⟩ :=
      run_componentVariable_named known (recorded_use recorded [.component]) isCallee
    have plain : ¬ Marked callee := by
      rw [isName]
      exact not_marked_ofTag parts
    have walked := walked_slotFunctions (carriesAll_gather each .nil isSlots) recordedCallee areFunctions
    rw [Set.empty_union] at walked
    have inert : ∀ entry ∈ group "props" ((groups attributes).attributes ++ (groups attributes).properties) ++
        group "events" (groups attributes).events, Inert entry.2 :=
      List.forall_mem_append.2 ⟨inert_group (List.forall_mem_append.2 ⟨inert_fixed _, inert_bound _⟩) _, inert_group (inert_handler _) _⟩
    refine ⟨⟨fun m => ?_, fun other => ?_, fun other => ?_, ?_, ?_, walked.recorded⟩, nofun⟩
    · rw [walked.mentions, noted, mentions_use recorded.component, or_assoc, Option.toList_some]
      refine or_congr_right (needed_of_plain plain fun m => ?_).symm
      rw [mentionedIn_singleton, Code.mem_mentions_call, mentionedIn_singleton, Code.mem_mentions_object]
      exact or_congr_right ((mentionedIn_properties inert _).trans (mentionedIn_group _ _))
    · rw [walked.children, tags]
      simp [isChild, or_assoc, eq_comm, or_comm, or_left_comm]
    · rw [walked.elements, elements]
      simp [noElement]
    · rw [walked.slots, slotsSame]
      simp [noOutlet]
    · refine List.forall_mem_singleton.2 (tidy_call (List.forall_mem_singleton.2 (tidy_object ?_)))
      rw [List.map_append]
      exact List.forall_mem_append.2 ⟨List.forall_mem_map.2 fun entry member => (inert entry member).2 _ _,
        tidy_group fun code member => (walked.tidy code member).mono Set.subset_union_left⟩

/-! Markup. -/

/-- Tags of child components are spelled in characters of element names. -/
def PlainChild (setting : Setting) (node : Markup) : Prop :=
  ∀ tag, childTag? setting node = some tag → ∀ c ∈ tag.toList, Text.isTagPart c = true

theorem carries_default {action : Action} (walks : Walks setting nodes action) : Carries setting nodes ⟨"default", [action], []⟩ := by
  refine ⟨[nodes], ∅, .cons walks .nil, ?_, nofun, nofun⟩
  rw [joined_cons, joined_nil, Set.union_empty, Set.union_empty]

theorem mem_letNames {config : Config} {attributes : List Attribute} {children : List Markup} {attr : Attribute} {tag : String}
    {binding : String × String} (isWrapper : tag = config.templateTag) (member : attr ∈ attributes)
    (isBinding : binding? tag attr = .ok (some binding)) :
    binding.2 ∈ letNames config (.element tag attributes children) := by
  rw [letNames, if_pos isWrapper]
  refine List.mem_filterMap.2 ⟨attr, member, ?_⟩
  rw [binding?] at isBinding
  split at isBinding
  next => cases isBinding
  next name isName =>
    rw [isName]
    split at isBinding
    · cases isBinding
    next valid =>
      rw [show (some name).filter Text.isIdentifier = some name by simpa using valid]
      obtain ⟨_, kind, value⟩ := attr
      cases kind <;> cases value <;> dsimp only at isBinding <;> (try split at isBinding) <;> (try split at isBinding) <;>
        cases isBinding <;> rfl

theorem exists_of_mem_mapM_binding? {tag : String} {attributes : List Attribute} {bindings : List (Option (String × String))}
    (found : attributes.mapM (binding? tag) = .ok bindings) :
    ∀ binding ∈ bindings, ∃ attr ∈ attributes, binding? tag attr = .ok binding := by
  induction attributes generalizing bindings with
  | nil =>
    cases found
    exact nofun
  | cons attr rest ih =>
    rw [List.mapM_cons] at found
    cases isFirst : binding? tag attr with
    | error problem =>
      rw [isFirst] at found
      cases found
    | ok binding =>
      cases areOthers : rest.mapM (binding? tag) with
      | error problem =>
        rw [isFirst, areOthers] at found
        cases found
      | ok others =>
        rw [isFirst, areOthers] at found
        cases found
        refine List.forall_mem_cons.2 ⟨⟨attr, List.mem_cons_self .., isFirst⟩, fun binding member => ?_⟩
        exact (ih areOthers binding member).imp fun _ found => ⟨List.mem_cons_of_mem _ found.1, found.2⟩

/-- A wrapper routes what it holds, under the names that it takes from the context. -/
theorem routes_wrapper {tag : String} {attributes : List Attribute} (children : List Markup) {actions : List Action}
    (isWrapper : tag = setting.config.templateTag) (each : List.Forall₂ (Walks setting) walks actions) :
    Routes setting (joined walks ∪ {.element tag attributes children}) (wrapper tag attributes actions) := by
  intro routed done
  rw [wrapper] at done
  cases isSlot : wrapperSlot tag attributes with
  | error problem =>
    rw [isSlot] at done
    cases done
  | ok slot =>
    cases areBindings : attributes.mapM (binding? tag) with
    | error problem =>
      rw [isSlot, areBindings] at done
      cases done
    | ok bindings =>
      rw [isSlot, areBindings] at done
      cases done
      refine ⟨walks, {.element tag attributes children}, each, rfl, ?_, fun binding member => ?_⟩
      · rintro _ rfl
        simp [Silent, childTag?, elementTag?, isOutlet, isWrapper]
      · obtain ⟨_, inside, rfl⟩ := List.mem_filterMap.1 member
        obtain ⟨attr, isAttr, isBinding⟩ := exists_of_mem_mapM_binding? areBindings _ inside
        exact ⟨_, rfl, .inr (mem_letNames isWrapper isAttr isBinding)⟩

theorem Walks.beside {action : Action} (walks : Walks setting nodes action) (silent : ∀ node ∈ more, Silent setting node) :
    Walks setting (nodes ∪ more) action := by
  intro used code after recorded done
  obtain ⟨walked, same⟩ := walks recorded done
  exact ⟨walked.beside silent, same⟩

mutual
theorem walks_node : (self : Markup) → (∀ node ∈ reached setting.config self, PlainChild setting node) →
    Walks setting {node | node ∈ reached setting.config self} (node setting self)
  | .element name attributes children, plain => by
    rw [node]
    split
    next => exact fun _ _ _ _ => nofun
    next noWrapper =>
      split
      next isSlot =>
        have only : {node | node ∈ reached setting.config (.element name attributes children)} = {.element name attributes children} := by
          ext
          simp [reached, isSlot, isSlot ▸ noWrapper]
        rw [only]
        exact walks_slot (by simp [isOutlet, isSlot, isSlot ▸ noWrapper]) (by simp [childTag?, isSlot]) (by simp [elementTag?, isSlot])
      next noSlot =>
        have all : {node | node ∈ reached setting.config (.element name attributes children)} =
            {node | node ∈ reachedIn setting.config children} ∪ {.element name attributes children} := by
          ext
          simp [reached, noSlot, or_comm]
        rw [reached, if_neg (fun isSlot => noSlot isSlot.1)] at plain
        obtain ⟨plain, plainInside⟩ := List.forall_mem_cons.1 plain
        rw [all]
        split
        next known =>
          have isChild : childTag? setting (.element name attributes children) = some name := by
            simp [childTag?, noWrapper, noSlot, known]
          obtain ⟨walks, each, isJoined⟩ := walks_routes children plainInside
          rw [← isJoined]
          exact walks_component isChild known (plain name isChild) (by simp [elementTag?, known]) (by simp [isOutlet, noSlot]) each
        next unknown =>
          obtain ⟨walks, each, isJoined⟩ := walks_nodes children plainInside
          rw [← isJoined]
          exact walks_element (by simp [elementTag?, noWrapper, noSlot, unknown]) (by simp [childTag?, unknown])
            (by simp [isOutlet, noSlot])
            (walks_siblings each)
  | .text value, _ => by
    rw [node]
    refine walks_text fun node member => ?_
    obtain rfl := List.mem_singleton.1 member
    exact ⟨rfl, rfl, rfl⟩
  | .expression value, _ => by
    rw [node]
    refine walks_interpolation fun node member => ?_
    obtain rfl := List.mem_singleton.1 member
    exact ⟨rfl, rfl, rfl⟩
  | .conditional test body others otherwise, plain => by
    rw [reached, List.forall_mem_cons, List.forall_mem_append, List.forall_mem_append] at plain
    obtain ⟨walks, each, isBody⟩ := walks_nodes body plain.2.1
    obtain ⟨walksOthers, eachOther, areOthers⟩ := walks_branches others plain.2.2.1
    obtain ⟨walksLast, eachLast, isLast⟩ := walks_nodes otherwise plain.2.2.2
    have eachBranch : List.Forall₂ (fun nodes (action : Expression × Action) => Walks setting nodes action.2) (joined walks :: walksOthers)
        ((test, siblings (Lowering.nodes setting body)) :: branches setting others) := .cons (walks_siblings each) eachOther
    have silent : ∀ node ∈ ({.conditional test body others otherwise} : Set Markup), Silent setting node := by
      rintro _ rfl
      exact ⟨rfl, rfl, rfl⟩
    rw [node]
    convert (walks_conditional eachBranch (walks_siblings eachLast)).beside silent using 1
    rw [joined_cons, isBody, areOthers, isLast]
    ext
    simp [reached, or_assoc, or_comm, or_left_comm]
  | .loop item items track body empty, plain => by
    rw [reached, List.forall_mem_cons, List.forall_mem_append] at plain
    obtain ⟨walks, each, isBody⟩ := walks_nodes body plain.2.1
    obtain ⟨walksEmpty, eachEmpty, isEmpty⟩ := walks_nodes empty plain.2.2
    rw [node]
    have silent : Silent setting (.loop item items track body empty) := ⟨rfl, rfl, rfl⟩
    convert walks_loop silent (fun _ => .inl) (walks_siblings each) (walks_siblings eachEmpty) using 1
    rw [isBody, isEmpty]
    ext
    simp [reached, or_comm]

theorem walks_nodes : (several : List Markup) → (∀ node ∈ reachedIn setting.config several, PlainChild setting node) →
    ∃ walks, List.Forall₂ (Walks setting) walks (Lowering.nodes setting several) ∧
      joined walks = {node | node ∈ reachedIn setting.config several}
  | [], _ => by
    rw [Lowering.nodes]
    exact ⟨[], .nil, by rw [joined_nil]; simp [reachedIn]⟩
  | first :: rest, plain => by
    rw [reachedIn, List.forall_mem_append] at plain
    obtain ⟨walks, each, isJoined⟩ := walks_nodes rest plain.2
    rw [Lowering.nodes]
    refine ⟨_, .cons (walks_node first plain.1) each, ?_⟩
    rw [joined_cons, isJoined]
    ext
    simp [reachedIn]

theorem walks_branches : (others : List (Branch Markup)) → (∀ node ∈ reachedInBranches setting.config others, PlainChild setting node) →
    ∃ walks, List.Forall₂ (fun nodes action => Walks setting nodes action.2) walks (branches setting others) ∧
      joined walks = {node | node ∈ reachedInBranches setting.config others}
  | [], _ => by
    rw [branches]
    exact ⟨[], .nil, by rw [joined_nil]; simp [reachedInBranches]⟩
  | ⟨test, body⟩ :: rest, plain => by
    rw [reachedInBranches, List.forall_mem_append] at plain
    obtain ⟨walks, each, isJoined⟩ := walks_branches rest plain.2
    obtain ⟨walksBody, eachBody, isBody⟩ := walks_nodes body plain.1
    rw [branches]
    refine ⟨_, .cons (walks_siblings eachBody) each, ?_⟩
    rw [joined_cons, isJoined, isBody]
    ext
    simp [reachedInBranches]

theorem walks_routes : (several : List Markup) → (∀ node ∈ reachedIn setting.config several, PlainChild setting node) →
    ∃ walks, List.Forall₂ (Routes setting) walks (routes setting several) ∧ joined walks = {node | node ∈ reachedIn setting.config several}
  | [], _ => by
    rw [routes]
    exact ⟨[], .nil, by rw [joined_nil]; simp [reachedIn]⟩
  | first :: rest, plain => by
    rw [reachedIn, List.forall_mem_append] at plain
    obtain ⟨walks, each, isJoined⟩ := walks_routes rest plain.2
    have both (nodes : Set Markup) (same : nodes = {node | node ∈ reached setting.config first}) :
        joined (nodes :: walks) = {node | node ∈ reachedIn setting.config (first :: rest)} := by
      rw [joined_cons, isJoined, same]
      ext
      simp [reachedIn]
    have alone : Routes setting {node | node ∈ reached setting.config first} (.ok ⟨"default", [node setting first], []⟩) := by
      rintro _ ⟨⟩
      exact carries_default (walks_node first plain.1)
    cases first with
    | element name attributes children =>
      rw [routes]
      split
      next isWrapper =>
        have inside : reached setting.config (.element name attributes children) =
          .element name attributes children :: reachedIn setting.config children := by
          simp [reached, isWrapper]
        rw [inside] at plain
        obtain ⟨walksInside, eachInside, isInside⟩ := walks_nodes children fun node member => plain.1 node (List.mem_cons_of_mem _ member)
        refine ⟨_, .cons (routes_wrapper children isWrapper eachInside) each, both _ ?_⟩
        rw [isInside, inside]
        ext
        simp [or_comm]
      next => exact ⟨_, .cons alone each, both _ rfl⟩
    | _ =>
      rw [routes]
      · exact ⟨_, .cons alone each, both _ rfl⟩
      · exact fun _ _ _ => nofun
end

end Lowering

end ReactiveMarkup
