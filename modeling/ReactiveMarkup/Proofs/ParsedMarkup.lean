import ReactiveMarkup.Proofs.ParsedExpressions
import ReactiveMarkup.Proofs.PrintedMarkup

/-! What a text is parsed as can be spelled. It is read back as it was printed, if its expressions
are and none of its parts runs together with the next. -/

namespace ReactiveMarkup.Markup

open ReactiveMarkup.Expression (Formed Unsigned ok_bind)

/-- A guard that does not stop the parser does not hold. -/
theorem ok_guard {α β : Type} {condition : Prop} [Decidable condition] {fault : Fault} {stop : α → Parsed β} {next : Parsed β} {value : β}
    (parsed : (if condition then throw fault >>= stop else next) = .ok value) : ¬ condition ∧ next = .ok value := by
  split at parsed
  · cases parsed
  next other => exact ⟨other, parsed⟩

theorem drop_of_append {start : Cursor} {front behind : List Char} (same : start.rest = front ++ behind) :
    (start.drop front.length).rest = behind := by
  rw [Cursor.drop, same, List.drop_left]

/-! Attributes. -/

theorem parts_attributeName (chars : List Char) : ∀ c ∈ attributeName chars, c ≠ '=' ∧ c ≠ '>' ∧ Text.isBlank c = false := by
  induction chars with
  | nil => simp [attributeName]
  | cons c tail ih =>
    rw [attributeName]
    split
    · simp
    next goesOn =>
      simp only [endsName, Bool.not_eq_true, Bool.or_eq_false_iff, beq_eq_false_iff_ne] at goesOn
      exact List.forall_mem_cons.2 ⟨⟨goesOn.1.1.1, goesOn.1.1.2, goesOn.1.2⟩, ih⟩

theorem attributeName_of_boundName? {mark close : Char} {name : List Char} {inner : String}
    (parts : ∀ c ∈ name, c ≠ '=' ∧ c ≠ '>' ∧ Text.isBlank c = false) (bound : boundName? mark close name = some inner) : AttributeName inner := by
  cases name with
  | nil => cases bound
  | cons first rest =>
    rw [boundName?] at bound
    split at bound
    next found =>
      cases bound
      refine ⟨fun empty => ?_, fun c member => ?_⟩
      · have long := congrArg List.length empty
        rw [String.toList_ofList, List.length_dropLast, List.length_nil] at long
        omega
      · rw [String.toList_ofList] at member
        exact parts c (List.mem_cons_of_mem _ (List.mem_of_mem_dropLast member))
    next => cases bound

theorem formed_of_boundValue {start behind : Cursor} {value : Expression} (parsed : boundValue start = .ok (value, behind)) :
    Formed Unsigned value := by
  obtain ⟨⟨read, between⟩, isValue, parsed⟩ := ok_bind parsed
  obtain ⟨after, _, parsed⟩ := ok_bind parsed
  cases parsed
  exact Expression.formed_of_parseAt isValue

theorem written_of_parseAttribute {start behind : Cursor} {attr : Attribute} (parsed : parseAttribute start = .ok (attr, behind)) :
    Written (Formed Unsigned) attr := by
  have parts := parts_attributeName start.rest
  obtain ⟨filled, parsed⟩ := ok_guard parsed
  have named : AttributeName (.ofList (attributeName start.rest)) :=
    ⟨by simpa using filled, by simpa only [String.toList_ofList] using parts⟩
  split at parsed
  next =>
    cases parsed
    exact .flag named
  obtain ⟨_, parsed⟩ := ok_guard parsed
  split at parsed
  next inner bound =>
    obtain ⟨⟨value, after⟩, isValue, parsed⟩ := ok_bind parsed
    cases parsed
    exact .property (attributeName_of_boundName? parts bound) (formed_of_boundValue isValue)
  next inner _ bound =>
    obtain ⟨⟨value, after⟩, isValue, parsed⟩ := ok_bind parsed
    cases parsed
    exact .event (attributeName_of_boundName? parts bound) (formed_of_boundValue isValue)
  next noProperty noEvent =>
    obtain ⟨_, parsed⟩ := ok_guard parsed
    cases parsed
    refine .literal named (by rwa [String.toList_ofList]) (by rwa [String.toList_ofList]) fun member => ?_
    rw [String.toList_ofList] at member
    exact absurd (List.mem_takeWhile_imp member) (by decide)

theorem written_of_parseAttributes {bound : Nat} {start behind : Cursor} {attributes : List Attribute}
    (parsed : parseAttributes bound start = .ok (attributes, behind)) : ∀ attr ∈ attributes, Written (Formed Unsigned) attr := by
  induction bound generalizing start attributes with
  | zero => cases parsed
  | succ bound ih =>
    rw [parseAttributes] at parsed
    split at parsed
    · cases parsed
      simp
    obtain ⟨_, parsed⟩ := ok_guard parsed
    obtain ⟨⟨attr, after⟩, isFirst, parsed⟩ := ok_bind parsed
    obtain ⟨⟨others, ended⟩, areOthers, parsed⟩ := ok_bind parsed
    cases parsed
    exact List.forall_mem_cons.2 ⟨written_of_parseAttribute isFirst, ih areOthers⟩

/-! Expressions in markup. -/

theorem formed_of_parseInterpolation {start behind : Cursor} {value : Expression} (parsed : parseInterpolation start = .ok (value, behind)) :
    Formed Unsigned value := by
  obtain ⟨opened, _, parsed⟩ := ok_bind parsed
  obtain ⟨⟨read, between⟩, isValue, parsed⟩ := ok_bind parsed
  obtain ⟨after, _, parsed⟩ := ok_bind parsed
  cases parsed
  exact Expression.formed_of_parseAt isValue

theorem formed_of_parseParenthesized {start behind : Cursor} {value : Expression} (parsed : parseParenthesized start = .ok (value, behind)) :
    Formed Unsigned value := by
  obtain ⟨opened, _, parsed⟩ := ok_bind parsed
  obtain ⟨⟨read, between⟩, isValue, parsed⟩ := ok_bind parsed
  obtain ⟨after, _, parsed⟩ := ok_bind parsed
  cases parsed
  exact Expression.formed_of_parseAt isValue

theorem formed_of_parseLoopHead {start behind : Cursor} {head : LoopHead} (parsed : parseLoopHead start = .ok (head, behind)) :
    Formed Unsigned head.item ∧ Formed Unsigned head.items ∧ Formed Unsigned head.track := by
  obtain ⟨opened, _, parsed⟩ := ok_bind parsed
  obtain ⟨⟨item, first⟩, isItem, parsed⟩ := ok_bind parsed
  obtain ⟨second, _, parsed⟩ := ok_bind parsed
  obtain ⟨⟨items, third⟩, areItems, parsed⟩ := ok_bind parsed
  obtain ⟨fourth, _, parsed⟩ := ok_bind parsed
  obtain ⟨fifth, _, parsed⟩ := ok_bind parsed
  obtain ⟨⟨track, sixth⟩, isTrack, parsed⟩ := ok_bind parsed
  obtain ⟨after, _, parsed⟩ := ok_bind parsed
  cases parsed
  exact ⟨Expression.formed_of_parseAt isItem, Expression.formed_of_parseAt areItems, Expression.formed_of_parseAt isTrack⟩

/-! Texts. -/

theorem textRun_prefix (chars : List Char) : ∃ rest, chars = textRun chars ++ rest ∧ Marker rest := by
  induction chars with
  | nil => exact ⟨[], rfl, .inl rfl⟩
  | cons c tail ih =>
    rw [textRun]
    split
    next ends => exact ⟨c :: tail, rfl, .inr ends⟩
    next =>
      obtain ⟨rest, same, marker⟩ := ih
      exact ⟨rest, congrArg (c :: ·) same, marker⟩

theorem endsText_of_append {front : List Char} (behind : List Char) (noEnd : endsText (front ++ behind) = false) : endsText front = false := by
  refine Bool.eq_false_iff.2 fun ends => ?_
  obtain ⟨word, listed, starts⟩ := List.any_eq_true.1 ends
  have spelled : word.toList <+: front ++ behind := (List.isPrefixOf_iff_prefix.1 starts).trans (List.prefix_append ..)
  exact Bool.eq_false_iff.1 noEnd (List.any_eq_true.2 ⟨word, listed, List.isPrefixOf_iff_prefix.2 spelled⟩)

/-- A text in front of others has no ending in it if they have none together. -/
theorem unbroken_of_append {front behind : List Char} (unbroken : ∀ tail ∈ (front ++ behind).tails, endsText tail = false) :
    ∀ tail ∈ front.tails, endsText tail = false := by
  intro tail member
  obtain ⟨before, rfl⟩ := (List.mem_tails ..).1 member
  exact endsText_of_append behind (unbroken _ ((List.mem_tails ..).2 ⟨before, (List.append_assoc ..).symm⟩))

theorem unbroken_textRun (chars : List Char) : ∀ tail ∈ (textRun chars).tails, endsText tail = false := by
  induction chars with
  | nil => decide
  | cons c tail ih =>
    obtain ⟨rest, same, _⟩ := textRun_prefix tail
    rw [textRun]
    split
    · decide
    next goesOn =>
      rw [List.tails, List.forall_mem_cons]
      refine ⟨endsText_of_append rest ?_, ih⟩
      rw [List.cons_append, ← same]
      exact Bool.eq_false_iff.2 goesOn

theorem not_of_head?_dropWhile {p : Char → Bool} (chars : List Char) {c : Char} (head : c ∈ (chars.dropWhile p).head?) : p c = false := by
  rw [← List.find?_not_eq_head?_dropWhile] at head
  simpa using List.find?_some head

/-- What is cut off as layout starts with a line feed. -/
theorem withoutLayout_prefix (raw : List Char) : ∃ layout, raw = withoutLayout raw ++ layout ∧ ∀ c ∈ layout.head?, c = '\n' := by
  refine ⟨(spaceBehind raw).dropWhile (· != '\n'), ?_, fun c head => by simpa using not_of_head?_dropWhile _ head⟩
  rw [withoutLayout_eq, List.append_assoc, List.takeWhile_append_dropWhile, trimRight_append]

theorem level_withoutLayout (raw : List Char) : '\n' ∉ (withoutLayout raw).reverse.takeWhile Text.isSpace := by
  have spaces : ∀ c ∈ ((spaceBehind raw).takeWhile (· != '\n')).reverse, Text.isSpace c = true := fun c member => by
    have inside := (List.takeWhile_prefix _).mem (List.mem_reverse.1 member)
    exact List.mem_takeWhile_imp (List.mem_reverse.1 inside)
  have stops : (Text.trimRight raw).reverse.takeWhile Text.isSpace = [] := by
    rw [Text.trimRight, List.reverse_reverse]
    cases behind : raw.reverse.dropWhile Text.isSpace with
    | nil => rfl
    | cons c tail =>
      have other : Text.isSpace c = false := not_of_head?_dropWhile raw.reverse (by rw [behind]; rfl)
      exact List.takeWhile_cons_of_neg (by simp [other])
  rw [withoutLayout_eq, List.reverse_append, List.takeWhile_append_of_pos spaces, stops, List.append_nil]
  intro member
  exact absurd (List.mem_takeWhile_imp (List.mem_reverse.1 member)) (by decide)

/-- A text that is read has no ending in it, and layout is cut off behind it. -/
theorem plain_of_parseText {start behind : Cursor} {node : Markup} (visible : Visible start.rest)
    (parsed : parseText start = (some node, behind)) :
    ∃ value layout, node = .text value ∧ Plain value ∧ start.rest = value.toList ++ (layout ++ behind.rest) ∧
      (∀ c ∈ layout.head?, c = '\n') ∧ Marker behind.rest := by
  obtain ⟨rest, same, marker⟩ := textRun_prefix start.rest
  obtain ⟨layout, sameRun, feed⟩ := withoutLayout_prefix (textRun start.rest)
  have whole : start.rest = withoutLayout (textRun start.rest) ++ (layout ++ rest) := by
    rw [← List.append_assoc, ← sameRun]
    exact same
  have behindRun : (start.drop (textRun start.rest).length).rest = rest := drop_of_append same
  rw [parseText] at parsed
  split at parsed
  · cases parsed
  next filled =>
    cases parsed
    rw [behindRun]
    refine ⟨.ofList (withoutLayout (textRun start.rest)), layout, rfl, ⟨?_, ?_, ?_, ?_⟩, by rwa [String.toList_ofList], feed, marker⟩
    all_goals rw [String.toList_ofList]
    · exact Bool.eq_false_iff.2 filled
    · intro c head
      cases value : withoutLayout (textRun start.rest) with
      | nil => simp [value] at head
      | cons first tail =>
        rw [value] at head whole
        cases head
        exact visible c _ whole
    · exact unbroken_of_append (by rw [← sameRun]; exact unbroken_textRun start.rest)
    · exact level_withoutLayout _

theorem marker_of_parseText (start : Cursor) : Marker (parseText start).2.rest := by
  obtain ⟨rest, same, marker⟩ := textRun_prefix start.rest
  have behindRun : (start.drop (textRun start.rest).length).rest = rest := drop_of_append same
  rw [parseText]
  exact behindRun ▸ marker

theorem parseText_marker {start : Cursor} (marker : Marker start.rest) : (parseText start).1 = none := by
  have nothing : textRun start.rest = [] := by
    obtain empty | ends := marker
    · rw [empty]
      rfl
    · cases chars : start.rest with
      | nil => rfl
      | cons c tail => rw [textRun, ← chars, if_pos ends]
  rw [parseText, nothing]
  rfl

/-- A word at the start of a text is one at its place. -/
theorem startsWithWord_of_prefix {word : String} {front behind : List Char} (starts : startsWithWord word front = true)
    (apart : ∀ c ∈ behind.head?, Text.isIdentifierPart c = false) : startsWithWord word (front ++ behind) = true := by
  rw [startsWithWord, Bool.and_eq_true] at starts ⊢
  obtain ⟨spelled, noPart⟩ := starts
  have isPrefix := List.isPrefixOf_iff_prefix.1 spelled
  have long : word.length ≤ front.length := by simpa only [String.length_toList] using isPrefix.length_le
  refine ⟨List.isPrefixOf_iff_prefix.2 (isPrefix.trans (List.prefix_append ..)), ?_⟩
  rw [List.drop_append_of_le_length long]
  cases left : front.drop word.length with
  | nil =>
    rw [List.nil_append]
    cases head : behind.head? with
    | none => rfl
    | some c => simp [apart c head]
  | cons c tail => simpa [left] using noPart

/-! Siblings. -/

/-- Markup as it is parsed. -/
abbrev Spelled : List Markup → Prop := Laid (Formed Unsigned) False

/-- How siblings begin at a place: a text is one that stands there, and the words at its start are
those of the place. -/
def Begins (start : Cursor) (nodes : List Markup) : Prop :=
  ∀ value more, nodes = .text value :: more →
    ¬ Marker start.rest ∧ ∀ word, startsWithWord word value.toList = true → startsWithWord word (skipBlanks start).rest = true

theorem skipBlanks_marker {start : Cursor} (marker : Marker start.rest) : skipBlanks start = start :=
  skipBlanks_visible marker.visible start.offset

theorem visible_skipBlanks (start : Cursor) : Visible (skipBlanks start).rest := by
  have behind : (skipBlanks start).rest = start.rest.dropWhile Text.isBlank := drop_of_append List.takeWhile_append_dropWhile.symm
  intro c tail same
  exact not_of_head?_dropWhile start.rest (by rw [← behind, same]; rfl)

theorem Begins.of_skipBlanks {start : Cursor} {nodes : List Markup} (begins : Begins (skipBlanks start) nodes) : Begins start nodes := by
  intro value more same
  obtain ⟨noMarker, words⟩ := begins value more same
  refine ⟨fun marker => noMarker (by rwa [skipBlanks_marker marker]), fun word starts => ?_⟩
  have again := words word starts
  rwa [skipBlanks_visible (visible_skipBlanks start)] at again

/-- What a place is read as, together with whatever siblings come behind it. -/
def Leads (start : Cursor) (node? : Option Markup) (behind : Cursor) : Prop :=
  ∀ others, Spelled others → Begins behind others → Spelled (node?.toList ++ others) ∧ Begins start (node?.toList ++ others)

theorem leads_text {start : Cursor} (visible : Visible start.rest) : Leads start (parseText start).1 (parseText start).2 := by
  intro others laid begins
  have marker := marker_of_parseText start
  have apart : ∀ value more, others ≠ .text value :: more := fun value more same => (begins value more same).1 marker
  cases found : (parseText start).1 with
  | none => exact ⟨laid, fun value more same => absurd same (apart value more)⟩
  | some node =>
    obtain ⟨value, layout, rfl, plain, same, feed, _⟩ := plain_of_parseText visible (Prod.ext found rfl)
    refine ⟨.text plain apart (fun tight => tight.elim) laid, ?_⟩
    rintro _ _ ⟨rfl, rfl⟩
    refine ⟨fun isMarker => ?_, fun word starts => ?_⟩
    · rw [parseText_marker isMarker] at found
      cases found
    · rw [skipBlanks_visible visible, same]
      refine startsWithWord_of_prefix starts fun c head => ?_
      cases layout with
      | nil => exact (visible_of_mem_markers (marker.head head)).2
      | cons first tail =>
        cases head
        rw [feed c rfl]
        decide

/-- What each parser reads at some depth can be spelled. -/
structure Spells (depth : Nat) : Prop where
  siblings : ∀ {ending start nodes behind}, parseSiblings depth ending start = .ok (nodes, behind) → Spelled nodes ∧ Begins start nodes
  node : ∀ {start node? behind}, Visible start.rest → parseNode depth start = .ok (node?, behind) → Leads start node? behind
  element : ∀ {start node behind}, parseElement depth start = .ok (node, behind) → ∀ place, Leads place (some node) behind
  block : ∀ {name start body behind}, parseBlock depth name start = .ok (body, behind) → Spelled body
  conditional : ∀ {start node behind}, parseConditional depth start = .ok (node, behind) → ∀ place, Leads place (some node) behind
  elses : ∀ {final start others otherwise behind}, parseElses depth final start = .ok ((others, otherwise), behind) →
    (∀ branch ∈ others, Formed Unsigned branch.test ∧ Spelled branch.body) ∧ Spelled otherwise ∧
      startsWithWord "@else" (skipBlanks behind).rest = false
  loop : ∀ {start node behind}, parseLoop depth start = .ok (node, behind) → ∀ place, Leads place (some node) behind

theorem spells_zero : Spells 0 where
  siblings parsed := by cases parsed
  node _ parsed := by cases parsed
  element parsed := by cases parsed
  block parsed := by cases parsed
  conditional parsed := by cases parsed
  elses parsed := by cases parsed
  loop parsed := by cases parsed

variable {depth : Nat}

theorem Spells.siblings_succ (spells : Spells depth) {ending : Ending} {start behind : Cursor} {nodes : List Markup}
    (parsed : parseSiblings (depth + 1) ending start = .ok (nodes, behind)) : Spelled nodes ∧ Begins start nodes := by
  rw [parseSiblings] at parsed
  split at parsed
  · cases parsed
    exact ⟨.nil, fun value more same => by cases same⟩
  obtain ⟨_, parsed⟩ := ok_guard parsed
  obtain ⟨_, parsed⟩ := ok_guard parsed
  obtain ⟨⟨node?, between⟩, isNode, parsed⟩ := ok_bind parsed
  obtain ⟨⟨others, ended⟩, areOthers, parsed⟩ := ok_bind parsed
  cases parsed
  obtain ⟨laid, begins⟩ := spells.siblings areOthers
  obtain ⟨laidAll, beginsAll⟩ := spells.node (visible_skipBlanks start) isNode others laid begins
  exact ⟨laidAll, beginsAll.of_skipBlanks⟩

/-- A node that is no text leaves open how its place begins. -/
theorem leads_of_spelled {start behind : Cursor} {node : Markup} (noText : ∀ value, node ≠ .text value)
    (spelled : ∀ others, Spelled others → Begins behind others → Spelled (node :: others)) : Leads start (some node) behind := by
  refine fun others laid begins => ⟨spelled others laid begins, ?_⟩
  rintro value more ⟨rfl, rfl⟩
  exact absurd rfl (noText value)

theorem Spells.node_succ (spells : Spells depth) {start behind : Cursor} {node? : Option Markup} (visible : Visible start.rest)
    (parsed : parseNode (depth + 1) start = .ok (node?, behind)) : Leads start node? behind := by
  rw [parseNode] at parsed
  split at parsed
  next =>
    obtain ⟨⟨node, after⟩, isElement, parsed⟩ := ok_bind parsed
    cases parsed
    exact spells.element isElement start
  split at parsed
  next =>
    obtain ⟨⟨value, after⟩, isValue, parsed⟩ := ok_bind parsed
    cases parsed
    exact leads_of_spelled (by simp) fun others laid _ => .expression (formed_of_parseInterpolation isValue) laid
  split at parsed
  next =>
    obtain ⟨⟨node, after⟩, isBlock, parsed⟩ := ok_bind parsed
    cases parsed
    exact spells.conditional isBlock start
  split at parsed
  next =>
    obtain ⟨⟨node, after⟩, isBlock, parsed⟩ := ok_bind parsed
    cases parsed
    exact spells.loop isBlock start
  · cases parsed
    exact leads_text visible

theorem Spells.element_succ (spells : Spells depth) {start behind : Cursor} {node : Markup}
    (parsed : parseElement (depth + 1) start = .ok (node, behind)) (place : Cursor) : Leads place (some node) behind := by
  rw [parseElement] at parsed
  obtain ⟨_, parsed⟩ := ok_guard parsed
  obtain ⟨filled, parsed⟩ := ok_guard parsed
  obtain ⟨⟨attributes, tagged⟩, areAttributes, parsed⟩ := ok_bind parsed
  have named : TagName (.ofList ((start.drop 1).rest.takeWhile Text.isTagPart)) := by
    refine ⟨by simpa using filled, fun c member => ?_⟩
    rw [String.toList_ofList] at member
    exact List.mem_takeWhile_imp member
  have written := written_of_parseAttributes areAttributes
  dsimp only at parsed
  split at parsed
  next =>
    cases parsed
    exact leads_of_spelled (by simp) fun others laid _ => .element named written (fun tight => tight.elim) .nil laid
  next =>
    obtain ⟨opened, _, parsed⟩ := ok_bind parsed
    obtain ⟨⟨children, ended⟩, areChildren, parsed⟩ := ok_bind parsed
    obtain ⟨after, _, parsed⟩ := ok_bind parsed
    cases parsed
    exact leads_of_spelled (by simp) fun others laid _ =>
      .element named written (fun tight => tight.elim) (spells.siblings areChildren).1 laid

theorem Spells.block_succ (spells : Spells depth) {name : String} {start behind : Cursor} {body : List Markup}
    (parsed : parseBlock (depth + 1) name start = .ok (body, behind)) : Spelled body := by
  rw [parseBlock] at parsed
  obtain ⟨opened, _, parsed⟩ := ok_bind parsed
  obtain ⟨⟨children, ended⟩, areChildren, parsed⟩ := ok_bind parsed
  obtain ⟨after, _, parsed⟩ := ok_bind parsed
  cases parsed
  exact (spells.siblings areChildren).1

theorem Spells.conditional_succ (spells : Spells depth) {start behind : Cursor} {node : Markup}
    (parsed : parseConditional (depth + 1) start = .ok (node, behind)) (place : Cursor) : Leads place (some node) behind := by
  rw [parseConditional] at parsed
  obtain ⟨⟨test, tested⟩, isTest, parsed⟩ := ok_bind parsed
  obtain ⟨⟨body, ended⟩, isBody, parsed⟩ := ok_bind parsed
  obtain ⟨⟨⟨others, otherwise⟩, after⟩, areElses, parsed⟩ := ok_bind parsed
  cases parsed
  obtain ⟨branches, laidOtherwise, noElse⟩ := spells.elses areElses
  refine leads_of_spelled (by simp) fun siblings laid begins => ?_
  refine .conditional (formed_of_parseParenthesized isTest) (fun branch member => (branches branch member).1) (spells.block isBody)
    (fun branch member => (branches branch member).2) laidOtherwise (fun value more same => ?_) laid
  -- A word that starts a text would have been read as a branch.
  refine Bool.eq_false_iff.2 fun starts => ?_
  exact Bool.eq_false_iff.1 noElse ((begins value more same).2 "@else" starts)

theorem Spells.elses_succ (spells : Spells depth) {final : Bool} {start behind : Cursor} {others : List (Branch Markup)}
    {otherwise : List Markup} (parsed : parseElses (depth + 1) final start = .ok ((others, otherwise), behind)) :
    (∀ branch ∈ others, Formed Unsigned branch.test ∧ Spelled branch.body) ∧ Spelled otherwise ∧
      startsWithWord "@else" (skipBlanks behind).rest = false := by
  rw [parseElses] at parsed
  split at parsed
  next none =>
    cases parsed
    rw [afterKeyword?_eq] at none
    exact ⟨by simp, .nil, by simpa using none⟩
  next cursor found =>
    obtain ⟨_, parsed⟩ := ok_guard parsed
    split at parsed
    next =>
      obtain ⟨⟨test, tested⟩, isTest, parsed⟩ := ok_bind parsed
      obtain ⟨⟨body, ended⟩, isBody, parsed⟩ := ok_bind parsed
      obtain ⟨⟨⟨more, last⟩, after⟩, areMore, parsed⟩ := ok_bind parsed
      cases parsed
      obtain ⟨branches, laid, noElse⟩ := spells.elses areMore
      exact ⟨List.forall_mem_cons.2 ⟨⟨formed_of_parseParenthesized isTest, spells.block isBody⟩, branches⟩, laid, noElse⟩
    next =>
      obtain ⟨⟨body, ended⟩, isBody, parsed⟩ := ok_bind parsed
      obtain ⟨⟨⟨more, last⟩, after⟩, areMore, parsed⟩ := ok_bind parsed
      cases parsed
      exact ⟨by simp, spells.block isBody, (spells.elses areMore).2.2⟩

theorem Spells.loop_succ (spells : Spells depth) {start behind : Cursor} {node : Markup}
    (parsed : parseLoop (depth + 1) start = .ok (node, behind)) (place : Cursor) : Leads place (some node) behind := by
  rw [parseLoop] at parsed
  obtain ⟨⟨head, headed⟩, isHead, parsed⟩ := ok_bind parsed
  obtain ⟨⟨body, ended⟩, isBody, parsed⟩ := ok_bind parsed
  obtain ⟨item, items, track⟩ := formed_of_parseLoopHead isHead
  dsimp only at parsed
  split at parsed
  next =>
    cases parsed
    exact leads_of_spelled (by simp) fun others laid _ =>
      .loop item items track (spells.block isBody) .nil (fun tight => tight.elim) laid
  next =>
    obtain ⟨⟨empty, after⟩, isEmpty, parsed⟩ := ok_bind parsed
    cases parsed
    exact leads_of_spelled (by simp) fun others laid _ =>
      .loop item items track (spells.block isBody) (spells.block isEmpty) (fun tight => tight.elim) laid

theorem spells (depth : Nat) : Spells depth := by
  induction depth with
  | zero => exact spells_zero
  | succ depth ih =>
    exact ⟨ih.siblings_succ, ih.node_succ, ih.element_succ, ih.block_succ, ih.conditional_succ, ih.elses_succ, ih.loop_succ⟩

/-- Whatever a text is parsed as can be spelled. -/
theorem spelled_of_parse {source : Source} {nodes : List Markup} (parsed : parse source = .ok nodes) : Spelled nodes := by
  rw [parse] at parsed
  cases whole : parseWhole source.content with
  | error fault =>
    rw [whole] at parsed
    cases parsed
  | ok found =>
    rw [whole] at parsed
    cases parsed
    obtain ⟨⟨siblings, stop⟩, isWhole, done⟩ := ok_bind whole
    cases done
    exact ((spells _).siblings isWhole).1

/-! Markup that is read back. -/

def printableAttribute (attr : Attribute) : Bool :=
  match attr.value with
  | .expression value => value.printable
  | _ => true

/-- Whether the last attribute runs into the end of its tag. -/
def slashed (attributes : List Attribute) : Bool :=
  attributes.getLast?.any fun attr => attr.kind = .flag && attr.name.toList.getLast? == some '/'

/-- Whether a node runs into its next sibling: a text with a brace at its end into an
interpolation, or a loop without a branch for no items into a text that looks like one. -/
def runsInto (node : Markup) (rest : List Markup) : Bool :=
  match node, rest with
  | .text value, .expression _ :: _ => value.toList.getLast? == some '\x7b'
  | .loop _ _ _ _ [], .text value :: _ => startsWithWord "@empty" value.toList
  | _, _ => false

mutual
/-- Whether markup that was parsed is read back as it is printed. -/
def printable : Markup → Bool
  | .element _ attributes children => attributes.all printableAttribute && !slashed attributes && printableAll children
  | .text _ => true
  | .expression value => value.printable
  | .conditional test body others otherwise =>
    test.printable && printableAll body && printableBranches others && printableAll otherwise
  | .loop item items track body empty =>
    item.printable && items.printable && track.printable && printableAll body && printableAll empty

def printableAll : List Markup → Bool
  | [] => true
  | node :: rest => printable node && !runsInto node rest && printableAll rest

def printableBranches : List (Branch Markup) → Bool
  | [] => true
  | ⟨test, body⟩ :: rest => test.printable && printableAll body && printableBranches rest
end

theorem reprinted_of_printable {e : Expression} (formed : Formed Unsigned e) (good : e.printable = true) : Reprinted e := by
  rw [Expression.printable, Bool.and_eq_true] at good
  refine ⟨?_, good.1⟩
  rw [← Expression.tame_of_finite formed good.2]
  exact Expression.formed_tame formed

theorem written_of_printable {attr : Attribute} (written : Written (Formed Unsigned) attr) (good : printableAttribute attr = true) :
    Written Reprinted attr := by
  cases written with
  | literal named noProperty noEvent noQuote => exact .literal named noProperty noEvent noQuote
  | flag named => exact .flag named
  | property named formed => exact .property named (reprinted_of_printable formed good)
  | event named formed => exact .event named (reprinted_of_printable formed good)

theorem laid_of_printable {nodes : List Markup} (spelled : Spelled nodes) (good : printableAll nodes = true) :
    Laid Reprinted True nodes := by
  induction spelled with
  | nil => exact .nil
  | @element name attributes children rest named written _ _ _ ih more =>
    simp only [printableAll, printable, Bool.and_eq_true, List.all_eq_true] at good
    obtain ⟨⟨⟨⟨attrs, noSlash⟩, inside⟩, _⟩, others⟩ := good
    refine .element named (fun attr member => written_of_printable (written attr member) (attrs attr member)) (fun _ flag last slash => ?_)
      (ih inside) (more others)
    simp [slashed, last, Attribute.flag, slash] at noSlash
  | @text value rest plain apart _ _ more =>
    simp only [printableAll, printable, Bool.and_eq_true, Bool.true_and] at good
    refine .text plain apart (fun _ brace e others same => ?_) (more good.2)
    subst same
    simp [runsInto, brace] at good
  | expression formed _ more =>
    simp only [printableAll, printable, Bool.and_eq_true] at good
    exact .expression (reprinted_of_printable formed good.1.1) (more good.2)
  | @conditional test body otherwise rest branches formed tests _ _ _ noElse _ ih ihOthers ihOtherwise more =>
    simp only [printableAll, printable, Bool.and_eq_true] at good
    obtain ⟨⟨⟨⟨⟨isGood, inside⟩, others⟩, last⟩, _⟩, behind⟩ := good
    have each : ∀ branch ∈ branches, branch.test.printable = true ∧ printableAll branch.body = true := by
      clear * - others
      induction branches with
      | nil => simp
      | cons branch rest ih =>
        simp only [printableBranches, Bool.and_eq_true] at others
        exact List.forall_mem_cons.2 ⟨others.1, ih others.2⟩
    exact .conditional (reprinted_of_printable formed isGood)
      (fun branch member => reprinted_of_printable (tests branch member) (each branch member).1) (ih inside)
      (fun branch member => ihOthers branch member (each branch member).2) (ihOtherwise last) noElse (more behind)
  | @loop item items track body empty rest formed formedItems formedTrack _ _ _ _ ih ihEmpty more =>
    simp only [printableAll, printable, Bool.and_eq_true] at good
    obtain ⟨⟨⟨⟨⟨⟨isItem, areItems⟩, isTrack⟩, inside⟩, insideEmpty⟩, apart⟩, behind⟩ := good
    refine .loop (reprinted_of_printable formed isItem) (reprinted_of_printable formedItems areItems)
      (reprinted_of_printable formedTrack isTrack) (ih inside) (ihEmpty insideEmpty) (fun _ none value others same => ?_) (more behind)
    subst none same
    simpa [runsInto] using apart

/-- Markup that was parsed is read back as it is printed, if its expressions are and none of its
parts runs into the next. -/
theorem parse_printAll_of_parse {source : Source} {nodes : List Markup} (parsed : parse source = .ok nodes) (good : printableAll nodes = true)
    (url : String) : parse ⟨printAll nodes, url⟩ = .ok nodes := by
  rw [parse, parseWhole_printAll (laid_of_printable (spelled_of_parse parsed) good)]
  rfl

theorem parse_printAll_of_parse_layout :
    parse ⟨"<p/>\n\x7b\x7bx\x7d\x7d", "page"⟩ = .ok [.element "p" [] [], .expression (.identifier "x")] ∧
      parse ⟨"<p></p>\x7b\x7b x \x7d\x7d", "page"⟩ = .ok [.element "p" [] [], .expression (.identifier "x")] := by
  have parsed : parse ⟨"<p/>\n\x7b\x7bx\x7d\x7d", "page"⟩ = .ok [.element "p" [] [], .expression (.identifier "x")] := by cbv
  exact ⟨parsed, parse_printAll_of_parse parsed (by decide +kernel) "page"⟩

end ReactiveMarkup.Markup
