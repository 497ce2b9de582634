import ReactiveMarkup.Expression.Basic

/-!
Markup: elements with attributes, texts, interpolated expressions, conditional blocks and
loops.
-/

namespace ReactiveMarkup

/-- How an attribute is written: with a plain value, alone, as a binding of a property or
as a handler of an event. -/
inductive AttributeKind where
  | literal
  | flag
  | property
  | event
  deriving Repr, DecidableEq

inductive AttributeValue where
  | text (value : String)
  | bool (value : Bool)
  | expression (value : Expression)

structure Attribute where
  name : String
  kind : AttributeKind
  value : AttributeValue

/-- A guarded body. -/
structure Branch (α : Type) where
  test : Expression
  body : List α

inductive Markup where
  | element (name : String) (attributes : List Attribute) (children : List Markup)
  | text (value : String)
  | expression (value : Expression)
  | conditional (test : Expression) (body : List Markup) (others : List (Branch Markup))
      (otherwise : List Markup)
  | loop (item items track : Expression) (body empty : List Markup)

instance : Inhabited Markup := ⟨.text ""⟩

namespace Attribute

def literal (name value : String) : Attribute := ⟨name, .literal, .text value⟩

def flag (name : String) : Attribute := ⟨name, .flag, .bool true⟩

def property (name : String) (value : Expression) : Attribute := ⟨name, .property, .expression value⟩

def event (name : String) (value : Expression) : Attribute := ⟨name, .event, .expression value⟩

def text? (attr : Attribute) : Option String :=
  match attr.value with
  | .text value => some value
  | _ => none

def same (a b : Attribute) : Bool :=
  a.name == b.name && a.kind == b.kind &&
    match a.value, b.value with
    | .text s, .text t => s == t
    | .bool s, .bool t => s == t
    | .expression s, .expression t => s.same t
    | _, _ => false

def sameAll : List Attribute → List Attribute → Bool
  | [], [] => true
  | a :: as, b :: bs => a.same b && sameAll as bs
  | _, _ => false

end Attribute

namespace Markup

mutual
def same : Markup → Markup → Bool
  | .element n a c, .element m b d => n == m && Attribute.sameAll a b && sameAll c d
  | .text a, .text b => a == b
  | .expression a, .expression b => a.same b
  | .conditional t b o e, .conditional u c p f =>
    t.same u && sameAll b c && sameBranches o p && sameAll e f
  | .loop i s t b e, .loop j r u c f =>
    i.same j && s.same r && t.same u && sameAll b c && sameAll e f
  | _, _ => false

def sameAll : List Markup → List Markup → Bool
  | [], [] => true
  | a :: as, b :: bs => a.same b && sameAll as bs
  | _, _ => false

def sameBranches : List (Branch Markup) → List (Branch Markup) → Bool
  | [], [] => true
  | ⟨t, a⟩ :: as, ⟨u, b⟩ :: bs => t.same u && sameAll a b && sameBranches as bs
  | _, _ => false
end

end Markup

end ReactiveMarkup
