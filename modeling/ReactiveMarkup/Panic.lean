/-!
Ways in which running code breaks off, and their wording.
-/

namespace ReactiveMarkup

inductive Panic where
  | notDefined (name : String)
  | notFunction (callee : String)
  | nullishRead (receiver key expression : String)
  | notIterable (value : String)
  /-- A computed value was asked for while it was being computed. -/
  | dependencyCycle
  | elementUnmounted (tag : String)
  | textUnmounted
  | fragmentUnmounted
  | conditionalUnmounted
  | listUnmounted
  | componentUnmounted (name : String)
  | listOutOfSync (key : String)
  | duplicateKey (key : String)
  | unknownHandle (handle : Nat)
  | anchorElsewhere (anchor target : Nat)
  | nothingToReplace (container : Nat)
  | insertionIndex (index length : Nat)
  /-- Broken off by the host, in its own words. -/
  | host (message : String)
  deriving Repr, DecidableEq

def Panic.message : Panic → String
  | .notDefined name => "ReferenceError: " ++ name ++ " is not defined"
  | .notFunction callee => "TypeError: " ++ callee ++ " is not a function"
  | .nullishRead receiver key expression =>
    "TypeError: Cannot read properties of " ++ receiver ++ " (reading '" ++ key ++ "') in `" ++
      expression ++ "`"
  | .notIterable value => "TypeError: " ++ value ++ " is not iterable"
  | .dependencyCycle => "computed cell read itself while computing (dependency cycle)"
  | .elementUnmounted tag => "<" ++ tag ++ "> element read before mounting"
  | .textUnmounted => "text node read before mounting"
  | .fragmentUnmounted => "fragment read before mounting"
  | .conditionalUnmounted => "if node read before mounting"
  | .listUnmounted => "for node read before mounting"
  | .componentUnmounted name => "component <" ++ name ++ "> read before mounting"
  | .listOutOfSync key => "for node has no entry for track key `" ++ key ++ "`; state out of sync"
  | .duplicateKey key => "duplicate track key `" ++ key ++ "` in list"
  | .unknownHandle handle => "unknown handle #" ++ toString handle
  | .anchorElsewhere anchor target =>
    "insertion anchor #" ++ toString anchor ++ " is not a child of #" ++ toString target
  | .nothingToReplace container =>
    "replace requires at least one handle of #" ++ toString container ++ " to replace"
  | .insertionIndex index length =>
    "insertion index (is " ++ toString index ++ ") should be <= len (is " ++ toString length ++ ")"
  | .host message => message

end ReactiveMarkup
