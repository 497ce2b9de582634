import ReactiveMarkup.Program.Printer
import ReactiveMarkup.Proofs.ParsedExpressions

/-! A function without parameters around an expression of the markup is written as the arrow
function that the expression language itself has. Its text is read back as this function exactly if
the expression holds no infinite number and no body that starts with a brace without being an
object literal, its own text included. -/

namespace ReactiveMarkup

namespace Layout

theorem Page.print_append (page : Page) (front back : String) : (page.print front).print back = page.print (front ++ back) := by
  simp only [Page.print, String.append_assoc]

end Layout

namespace Code

/-- Wherever the function is written, its text is that of an arrow function. -/
theorem foldl_layout_thunk (e : Expression) (page : Layout.Page) :
    (Code.thunk (.host e)).layout.foldl Layout.Page.step page = page.print (Expression.print (.arrow [] e)) := by
  have params : (List.map printParam ([] : List Param)) = [] := rfl
  simp only [Code.thunk, Code.layout, params, needsParentheses, List.cons_append, List.nil_append, List.foldl_cons, List.foldl_nil,
    Layout.Page.step, Layout.Page.print_append, Expression.print]
  refine congrArg page.print (String.toList_inj.1 ?_)
  by_cases wrapped : e.isObject = true <;> simp [wrapped, Expression.parenthesizeIf]

end Code

namespace Expression

/-- A whole text that was printed is read with names in place of infinite numbers, or not at all. -/
theorem toOption_parse_print {e : Expression} (formed : Formed Unsigned e) (url : String) :
    (parse ⟨print e, url⟩).toOption = if everywhere clearBody e then some (tame e) else none := by
  have nothing : Apart [] := fun c tail same => by cases same
  have ends : Ends 0 [] := fun token more same => by cases same
  have spells := spells_print (formed_tame formed)
  rw [print_tame formed] at spells
  obtain ⟨cut, same, cutTokens, _⟩ := spells.lexes 0 [] nothing
  have parsed := parseTokens_lexemes (formed_tame formed) same ends
  rw [List.append_nil, tokens] at cutTokens
  rw [reread, clear_tame formed, ← cutTokens] at parsed
  split
  next clear =>
    rw [if_pos clear] at parsed
    rw [parse, parseWhole, ok_of_toOption parsed]
    rfl
  next unclear =>
    rw [if_neg unclear] at parsed
    rw [parse, parseWhole]
    cases outcome : parseTokens (tokens 0 (print e).toList) with
    | error fault => rfl
    | ok result =>
      rw [outcome] at parsed
      cases parsed

theorem ok_of_toOption_parse {source : Source} {e : Expression} (read : (parse source).toOption = some e) : parse source = .ok e := by
  cases outcome : parse source with
  | error problem =>
    rw [outcome] at read
    cases read
  | ok again =>
    rw [outcome] at read
    exact congrArg Except.ok (Option.some.inj read)

/-- An expression that is read from a text, as a whole or at a place in it. -/
inductive Accepted (e : Expression) : Prop where
  | whole {source : Source} (parsed : parse source = .ok e)
  | place {start behind : Cursor} (parsed : parseAt start = .ok (e, behind))

theorem Accepted.formed {e : Expression} (accepted : Accepted e) : Formed Unsigned e := by
  cases accepted with
  | @whole source parsed =>
    rw [parse_eq_ok_iff, parseTokens_eq_ok_iff] at parsed
    refine formed_of_derives parsed fun lexeme member => ?_
    obtain ⟨token, among, rfl⟩ := List.mem_map.1 member
    exact sane_tokens _ _ token among
  | place parsed => exact formed_of_parseAt parsed

/-- The function around an accepted expression is read back as it is if it is printable, and as
nothing that is the same otherwise. -/
theorem parse_thunk {e : Expression} (accepted : Accepted e) :
    (∀ page, (Code.thunk (.host e)).layout.foldl Layout.Page.step page = page.print (print (.arrow [] e))) ∧
    (printable (.arrow [] e) = true → ∀ url, parse ⟨print (.arrow [] e), url⟩ = .ok (.arrow [] e)) ∧
    (printable (.arrow [] e) = false → ∀ url again, parse ⟨print (.arrow [] e), url⟩ = .ok again →
      same (.arrow [] e) again = false) := by
  have formed : Formed Unsigned (.arrow [] e) := .arrow (List.forall_mem_nil _) accepted.formed
  refine ⟨Code.foldl_layout_thunk e, fun good url => ?_, fun bad url again parsed => ?_⟩
  · rw [printable, Bool.and_eq_true] at good
    have read := toOption_parse_print formed url
    rw [if_pos good.1, tame_of_finite formed good.2] at read
    exact ok_of_toOption_parse read
  · have read := toOption_parse_print formed url
    rw [parsed] at read
    split at read
    next clear =>
      cases read
      rwa [same_tame formed, ← Bool.true_and (everywhere finiteNumber _), ← clear]
    next => cases read

/-- A choice between an object and a function that gives one. -/
def sampleChoice : Expression :=
  .conditional (.identifier "a") (.object [⟨"b", .identifier "b", true⟩]) (.arrow ["x"] (.object []))

theorem parse_thunk_choice : Accepted sampleChoice ∧ printable (.arrow [] sampleChoice) = true ∧
    parse ⟨"() => a ? \x7b b \x7d : (x) => (\x7b\x7d)", "expr"⟩ = .ok (.arrow [] sampleChoice) := by
  have named {name : String} (isName : Text.isIdentifier name = true ∧ keywords.contains name = false) :
      Formed Unsigned (.identifier name) := .identifier isName
  have entry : Formed Unsigned (.object [⟨"b", .identifier "b", true⟩]) :=
    .object (by simpa using named (by decide)) (by simp)
  have formed : Formed Unsigned sampleChoice :=
    .conditional (named (by decide)) entry (.arrow (by simpa using ⟨by decide, by decide⟩) (.object (by simp) (by simp)))
  have parsed : parse ⟨print sampleChoice, "expr"⟩ = .ok sampleChoice := by
    have read := toOption_parse_print formed "expr"
    rw [if_pos (by decide +kernel)] at read
    exact ok_of_toOption_parse read
  have good : printable (.arrow [] sampleChoice) = true := by decide +kernel
  exact ⟨.whole parsed, good, (parse_thunk (.whole parsed)).2.1 good "expr"⟩

end Expression

end ReactiveMarkup
