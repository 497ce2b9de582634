import ReactiveMarkup.Render.Mount

/-!
Closing the circle: code calls the machine and the machine calls code. The calls of one
level may nest as deep as the levels below them, so every run ends; a run that would go
deeper is exhausted.
-/

namespace ReactiveMarkup

/-- How a host runs its own code. -/
structure Interpreter (host : Host) where
  call : Calls host → host.Code → List Value → Run host Value
  react : Calls host → host.Code → Run host (Option host.Code)
  build : Calls host → host.Code → List Value → Run host NodeId
  control : Calls host → host.Code → Inputs host.Code → Run host Value
  view : Calls host → host.Code → Value → Slots host.Code → Run host (Option NodeId)

namespace Calls

variable {host : Host}

/-- No call is allowed. -/
def exhausted : Calls host where
  call _ _ := Step.exhausted
  react _ := Step.exhausted
  build _ _ := Step.exhausted
  control _ _ := Step.exhausted
  view _ _ _ := Step.exhausted
  apply _ _ := Step.exhausted
  perform _ := Step.exhausted
  flush := Step.exhausted
  resolve _ := Step.exhausted
  elements _ := Step.exhausted
  mount _ _ _ := Step.exhausted
  unmount _ _ := Step.exhausted
  fill _ _ := Step.exhausted

/-- Calls that nest at most as deep as given. -/
def upTo (interpreter : Interpreter host) : Nat → Calls host
  | 0 => exhausted
  | depth + 1 => {
      call := fun code arguments => interpreter.call (upTo interpreter depth) code arguments
      react := fun code => interpreter.react (upTo interpreter depth) code
      build := fun code arguments => interpreter.build (upTo interpreter depth) code arguments
      control := fun code inputs => interpreter.control (upTo interpreter depth) code inputs
      view := fun code context slots => interpreter.view (upTo interpreter depth) code context slots
      apply := fun id arguments => Machine.apply (upTo interpreter depth) id arguments
      perform := fun task => Machine.perform (upTo interpreter depth) task
      flush := fun machine => Machine.flush (upTo interpreter depth) depth machine
      resolve := fun anchor => Machine.resolve (upTo interpreter depth) anchor
      elements := fun id => Machine.elements (upTo interpreter depth) id
      mount := fun id target anchor => Machine.mount (upTo interpreter depth) id target anchor
      unmount := fun id target => Machine.unmount (upTo interpreter depth) id target
      fill := fun content context => Machine.fill (upTo interpreter depth) content context }

end Calls

/-- How deep the calls of a run may nest. -/
def callDepth : Nat := 100000

/-- A host without code of its own. -/
def Host.bare : Host := ⟨Empty, Unit, fun _ => []⟩

def Interpreter.bare : Interpreter Host.bare where
  call _ code _ := nomatch code
  react _ code := nomatch code
  build _ code _ := nomatch code
  control _ code _ := nomatch code
  view _ code _ _ := nomatch code

/-- A machine that has done nothing yet. -/
def Machine.bare : Machine Host.bare := { registry := { runtimeModule := "" }, world := () }

end ReactiveMarkup
