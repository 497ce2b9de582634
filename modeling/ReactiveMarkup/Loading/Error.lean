import ReactiveMarkup.Program.Constructor

/-!
Why a module cannot be loaded.
-/

namespace ReactiveMarkup

/-- Parts of a module that have a fixed form. -/
inductive Expected where
  | elementConstructor
  | componentDefinition
  | controllerIdentifier
  | renderFunction
  | renderNode
  | nodeConstructor
  | slotName
  | elementInput
  | attributes
  | properties
  | events
  | textSource
  | conditionalOptions
  | branch
  | branchTest
  | conditionalOption (found : String)
  | loopOptions
  | itemsThunk
  | itemParameter
  | itemFunction
  | componentInput
  | slots
  | slotFunction
  | value
  deriving Repr, DecidableEq

def Expected.text : Expected → String
  | .elementConstructor => "element constructor"
  | .componentDefinition => "component definition"
  | .controllerIdentifier => "controller identifier"
  | .renderFunction => "render function"
  | .renderNode => "render node"
  | .nodeConstructor => "render node constructor"
  | .slotName => "slot name"
  | .elementInput => "element input"
  | .attributes => "attrs"
  | .properties => "props"
  | .events => "events"
  | .textSource => "text source"
  | .conditionalOptions => "conditional options"
  | .branch => "[test, node] branch"
  | .branchTest => "branch test"
  | .conditionalOption found => "conditional option, found `" ++ found ++ "`"
  | .loopOptions => "loop options"
  | .itemsThunk => "items thunk"
  | .itemParameter => "single item parameter"
  | .itemFunction => "item function"
  | .componentInput => "component input"
  | .slots => "slots"
  | .slotFunction => "slot function"
  | .value => "value expression"

/-- What is wrong with a module. -/
inductive ModuleFault where
  /-- Something else stands where a part is expected. -/
  | expected (part : Expected)
  | notExported (name source : String)
  | namedImport (name source : String)
  | returnOutside
  | noExport
  | definitionArguments
  | notImported (name : String)
  | constructorMissing (constructor : Constructor) (source : String)
  | circularImport (path : String)
  | renderParameter (name : String)
  | renderBody
  | unknownConstructor (name : String)
  | unknownElementInput (key : String)
  | elementArguments
  | textArguments
  | conditionalArguments
  | loopArguments
  | unknownLoopOption (key : String)
  | itemsMissing
  | trackerMissing
  | componentArguments (name : String)
  | unknownComponentInput (key : String)
  | slotsMissing (slot : String)
  | slotArguments
  deriving Repr, DecidableEq

def ModuleFault.text : ModuleFault → String
  | .expected part => "expected " ++ part.text
  | .notExported name source => "`" ++ name ++ "` is not exported by " ++ source
  | .namedImport name source => "named import `" ++ name ++ "` from " ++ source ++ " is not supported"
  | .returnOutside => "return outside of a function"
  | .noExport => "program has no default export"
  | .definitionArguments => Constructor.component.name ++ " expects a name, a controller and a render function"
  | .notImported name => "`" ++ name ++ "` is not imported"
  | .constructorMissing constructor source =>
    "`" ++ constructor.name ++ "` is used but not imported from " ++ source
  | .circularImport path => "circular import of `" ++ path ++ "`"
  | .renderParameter name => "unexpected render parameter `" ++ name ++ "`"
  | .renderBody => "render function must be a single return statement"
  | .unknownConstructor name => "`" ++ name ++ "` is not a render node constructor"
  | .unknownElementInput key => "unknown element input `" ++ key ++ "`"
  | .elementArguments => "element constructor takes one input object"
  | .textArguments => Constructor.text.name ++ " takes one argument"
  | .conditionalArguments => Constructor.conditional.name ++ " takes one options object"
  | .loopArguments => Constructor.loop.name ++ " takes an options object and a render function"
  | .unknownLoopOption key => "unknown loop option `" ++ key ++ "`"
  | .itemsMissing => "loop without items"
  | .trackerMissing => "loop without trackBy"
  | .componentArguments name => name ++ " takes one input object"
  | .unknownComponentInput key => "unknown component input `" ++ key ++ "`"
  | .slotsMissing slot => "slot `" ++ slot ++ "` rendered but the render function takes no " ++ slotsName
  | .slotArguments => "slot functions take one context object"

inductive LoadError where
  | unknownModule (path : String)
  | faulty (fault : ModuleFault)
  deriving Repr, DecidableEq

def LoadError.message : LoadError → String
  | .unknownModule path => "Unknown module `" ++ path ++ "`"
  | .faulty fault => "Evaluation Error: " ++ fault.text

end ReactiveMarkup
