import ReactiveMarkup.Proofs.ParsedMarkup

/-! The shape of markup that was read from a text, as it can be relied on by what goes through the
tree: by the printer, by lowering, and at whatever depth a run of siblings stands. -/

namespace ReactiveMarkup

namespace Expression

/-- No keyword as a name, neither where one is read nor where an arrow function binds one. -/
def avoidsKeywords : Expression → Bool
  | .identifier name => !keywords.contains name
  | .arrow params _ => params.all fun name => !keywords.contains name
  | _ => true

theorem everywhere_avoidsKeywords {numbers : Float → Prop} {e : Expression} (formed : Formed numbers e) :
    everywhere avoidsKeywords e = true := by
  induction formed with
  | identifier named => simpa [everywhere, avoidsKeywords] using named.2
  | array _ ih =>
    rw [everywhere, Bool.and_eq_true]
    exact ⟨rfl, everywhereAll_iff.2 ih⟩
  | object _ _ ih =>
    rw [everywhere, Bool.and_eq_true]
    exact ⟨rfl, everywhereProperties_iff.2 ih⟩
  | member _ _ _ ih => simpa [everywhere, avoidsKeywords] using ih
  | index _ _ _ ih ihKey => simpa [everywhere, avoidsKeywords] using ⟨ih, ihKey⟩
  | call _ _ _ ih ihAll =>
    rw [everywhere, Bool.and_eq_true, Bool.and_eq_true]
    exact ⟨rfl, ih, everywhereAll_iff.2 ihAll⟩
  | unary _ _ ih => simpa [everywhere, avoidsKeywords] using ih
  | binary _ _ _ ihLeft ihRight => simpa [everywhere, avoidsKeywords] using ⟨ihLeft, ihRight⟩
  | conditional _ _ _ ihTest ihConsequent ihAlternate =>
    simpa [everywhere, avoidsKeywords] using ⟨ihTest, ihConsequent, ihAlternate⟩
  | arrow named _ ih =>
    rw [everywhere, Bool.and_eq_true, avoidsKeywords, List.all_eq_true]
    exact ⟨fun name member => by rw [(named name member).2]; rfl, ih⟩
  | _ => rfl

end Expression

namespace Markup

open Expression (Formed Unsigned everywhere avoidsKeywords everywhere_avoidsKeywords)

/-! Runs of siblings. -/

mutual
/-- The runs of siblings inside a node, at any depth. -/
def levelsInside : Markup → List (List Markup)
  | .element _ _ children => children :: levelsBelow children
  | .text _ | .expression _ => []
  | .conditional _ body others otherwise =>
    (body :: levelsBelow body) ++ levelsOfBranches others ++ (otherwise :: levelsBelow otherwise)
  | .loop _ _ _ body empty => (body :: levelsBelow body) ++ (empty :: levelsBelow empty)

def levelsBelow : List Markup → List (List Markup)
  | [] => []
  | first :: rest => levelsInside first ++ levelsBelow rest

def levelsOfBranches : List (Branch Markup) → List (List Markup)
  | [] => []
  | ⟨_, body⟩ :: rest => (body :: levelsBelow body) ++ levelsOfBranches rest
end

/-- All runs of siblings in markup, itself included. -/
def levels (siblings : List Markup) : List (List Markup) := siblings :: levelsBelow siblings

/-! What can be relied on. -/

def isText : Markup → Bool
  | .text _ => true
  | _ => false

/-- The expressions of a node itself. -/
def expressions : Markup → List Expression
  | .element _ attributes _ => attributes.filterMap fun attr =>
    match attr.value with
    | .expression value => some value
    | _ => none
  | .text _ => []
  | .expression value => [value]
  | .conditional test _ others _ => test :: others.map Branch.test
  | .loop item items track _ _ => [item, items, track]

/-- A text is not blank, does not start with white space that is skipped, has nothing in it that ends
a text, and ends on the line of its last word. -/
structure TextShape (value : String) : Prop where
  filled : Text.trim value.toList ≠ []
  visible : ∀ c ∈ value.toList.head?, Text.isBlank c = false
  unmarked : ∀ marker ∈ ["<", "\x7d", "\x7b\x7b", "@if", "@for"], ¬ marker.toList <:+: value.toList
  level : '\n' ∉ value.toList.reverse.takeWhile Text.isSpace

/-- The value of an attribute is of the kind that the attribute says. -/
def ValueShape : AttributeKind → AttributeValue → Prop
  | .literal, value => ∃ text, value = .text text ∧ '"' ∉ text.toList
  | .flag, value => value = .bool true
  | .property, value | .event, value => ∃ expression, value = .expression expression

def NodeShape : Markup → Prop
  | .element name attributes _ => (name.toList ≠ [] ∧ ∀ c ∈ name.toList, Text.isTagPart c = true) ∧
    ∀ attr ∈ attributes, attr.name ≠ "" ∧ ValueShape attr.kind attr.value
  | .text value => TextShape value
  | _ => True

structure Shaped (siblings : List Markup) : Prop where
  /-- No two texts stand side by side. -/
  apart : siblings.IsChain fun first second => ¬ (first.isText = true ∧ second.isText = true)
  nodes : ∀ node ∈ siblings, node.NodeShape
  names : ∀ node ∈ siblings, ∀ e ∈ node.expressions, everywhere avoidsKeywords e = true

theorem textShape_of_plain {value : String} (plain : Plain value) : TextShape value where
  filled := fun nothing => by
    have filled := plain.filled
    rw [nothing] at filled
    cases filled
  visible := plain.visible
  unmarked := by
    rintro marker member ⟨front, back, whole⟩
    have behind : marker.toList ++ back ∈ value.toList.tails := by
      rw [List.mem_tails, ← whole, List.append_assoc]
      exact List.suffix_append front _
    have ends : endsText (marker.toList ++ back) = true :=
      List.any_eq_true.2 ⟨marker, member, List.isPrefixOf_iff_prefix.2 (List.prefix_append ..)⟩
    rw [plain.unbroken _ behind] at ends
    cases ends
  level := plain.level

theorem shape_of_written {host : Expression → Prop} {attr : Attribute} (written : Written host attr) :
    attr.name ≠ "" ∧ ValueShape attr.kind attr.value := by
  have named {name : String} (named : AttributeName name) : name ≠ "" := fun isEmpty => named.nonempty (congrArg String.toList isEmpty)
  cases written with
  | literal isName _ _ noQuote => exact ⟨named isName, _, rfl, noQuote⟩
  | flag isName => exact ⟨named isName, rfl⟩
  | property isName _ => exact ⟨named isName, _, rfl⟩
  | event isName _ => exact ⟨named isName, _, rfl⟩

theorem host_of_written {host : Expression → Prop} {attributes : List Attribute} (written : ∀ attr ∈ attributes, Written host attr) 
    {name : String} {children : List Markup} :
    ∀ e ∈ (Markup.element name attributes children).expressions, host e := by
  intro e member
  obtain ⟨attr, isAttr, isValue⟩ := List.mem_filterMap.1 member
  cases written attr isAttr with
  | literal => cases isValue
  | flag => cases isValue
  | property _ formed => cases isValue; exact formed
  | event _ formed => cases isValue; exact formed

/-- A run with one more node in front. -/
theorem Shaped.cons {node : Markup} {rest : List Markup} (shaped : Shaped rest)
    (apart : ∀ value other more, node = .text value → rest ≠ .text other :: more) (shape : node.NodeShape)
    (names : ∀ e ∈ node.expressions, everywhere avoidsKeywords e = true) : Shaped (node :: rest) where
  apart := by
    cases rest with
    | nil => exact .singleton _
    | cons second more =>
      refine .cons_cons ?_ shaped.apart
      rintro ⟨isFirst, isSecond⟩
      cases node <;> cases isFirst
      cases second <;> cases isSecond
      exact apart _ _ _ rfl rfl
  nodes := List.forall_mem_cons.2 ⟨shape, shaped.nodes⟩
  names := List.forall_mem_cons.2 ⟨names, shaped.names⟩

/-- What holds of all runs inside the first node, of all runs of the others, and of the whole run. -/
theorem forall_levels_cons {holds : List Markup → Prop} {node : Markup} {rest : List Markup}
    (inside : ∀ level ∈ levelsInside node, holds level) (behind : ∀ level ∈ levels rest, holds level)
    (whole : holds (node :: rest)) : ∀ level ∈ levels (node :: rest), holds level := by
  rw [levels, levelsBelow]
  exact List.forall_mem_cons.2 ⟨whole, List.forall_mem_append.2 ⟨inside, (List.forall_mem_cons.1 behind).2⟩⟩

theorem forall_levelsOfBranches {holds : List Markup → Prop} {others : List (Branch Markup)}
    (each : ∀ branch ∈ others, ∀ level ∈ levels branch.body, holds level) :
    ∀ level ∈ levelsOfBranches others, holds level := by
  induction others with
  | nil => exact List.forall_mem_nil _
  | cons first rest ih =>
    obtain ⟨here, behind⟩ := List.forall_mem_cons.1 each
    exact List.forall_mem_append.2 ⟨here, ih behind⟩

theorem shaped_of_laid {tight : Prop} {siblings : List Markup} (laid : Laid (Formed Unsigned) tight siblings) :
    ∀ level ∈ levels siblings, Shaped level := by
  have noText {node : Markup} {rest : List Markup} (other : node.isText = false) :
      ∀ value text more, node = .text value → rest ≠ .text text :: more := by
    rintro value text more rfl
    cases other
  induction laid with
  | nil => exact List.forall_mem_singleton.2 ⟨.nil, List.forall_mem_nil _, List.forall_mem_nil _⟩
  | element named written _ _ _ inside behind =>
    refine forall_levels_cons inside behind ((behind _ (List.mem_cons_self ..)).cons (noText rfl)
      ⟨⟨named.nonempty, named.parts⟩, fun attr member => shape_of_written (written attr member)⟩ fun e member => ?_)
    exact everywhere_avoidsKeywords (host_of_written written e member)
  | text plain apart _ _ behind =>
    refine forall_levels_cons (List.forall_mem_nil _) behind ((behind _ (List.mem_cons_self ..)).cons
      (fun _ other more _ => apart other more) (textShape_of_plain plain) (List.forall_mem_nil _))
  | expression formed _ behind =>
    exact forall_levels_cons (List.forall_mem_nil _) behind ((behind _ (List.mem_cons_self ..)).cons (noText rfl) trivial
      (List.forall_mem_singleton.2 (everywhere_avoidsKeywords formed)))
  | conditional formed formedOthers _ _ _ _ _ inside insideOthers insideLast behind =>
    refine forall_levels_cons ?_ behind ((behind _ (List.mem_cons_self ..)).cons (noText rfl) trivial ?_)
    · rw [levelsInside]
      exact List.forall_mem_append.2 ⟨List.forall_mem_append.2 ⟨inside, forall_levelsOfBranches insideOthers⟩, insideLast⟩
    · exact List.forall_mem_cons.2 ⟨everywhere_avoidsKeywords formed, List.forall_mem_map.2 fun branch member =>
        everywhere_avoidsKeywords (formedOthers branch member)⟩
  | loop formed formedItems formedTrack _ _ _ _ inside insideEmpty behind =>
    refine forall_levels_cons ?_ behind ((behind _ (List.mem_cons_self ..)).cons (noText rfl) trivial ?_)
    · rw [levelsInside]
      exact List.forall_mem_append.2 ⟨inside, insideEmpty⟩
    · exact List.forall_mem_cons.2 ⟨everywhere_avoidsKeywords formed, List.forall_mem_cons.2
        ⟨everywhere_avoidsKeywords formedItems, List.forall_mem_singleton.2 (everywhere_avoidsKeywords formedTrack)⟩⟩

/-- Whatever text markup is read from, all runs of siblings in it have the same shape. -/
theorem shaped_of_parse {source : Source} {nodes : List Markup} (parsed : parse source = .ok nodes) :
    ∀ siblings ∈ levels nodes, Shaped siblings :=
  shaped_of_laid (spelled_of_parse parsed)

theorem shaped_of_parse_nested :
    parse ⟨"<p a>\n  b \n<i x=\"y\"/> c </p>", "page"⟩ =
        .ok [.element "p" [.flag "a"] [.text "b ", .element "i" [.literal "x" "y"] [], .text "c "]] ∧
      Shaped [.text "b ", .element "i" [.literal "x" "y"] [], .text "c "] := by
  have parsed : parse ⟨"<p a>\n  b \n<i x=\"y\"/> c </p>", "page"⟩ =
      .ok [.element "p" [.flag "a"] [.text "b ", .element "i" [.literal "x" "y"] [], .text "c "]] := rfl
  exact ⟨parsed, shaped_of_parse parsed _ (List.mem_cons_of_mem _ (List.mem_cons_self ..))⟩

end Markup

end ReactiveMarkup
