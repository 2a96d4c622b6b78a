import Linewise.Check.Body
import Linewise.Proofs.RunEnding

/-! A session does one thing after another to some scopes. It goes on after a fault, from
whatever the step that failed has left. -/

namespace Linewise

inductive Step
  | openScope
  | closeScope
  | declare (binding : Binding)
  | parameter (named : Parameter)
  | assign (name : Text) (value : Option Text)
  | variableLine (line : Text)
  | value (target : Ty) (t : Text)
  | condition (t : Text)
  | call (methods : MethodTable) (callee given : Text)
  | method (methods : MethodTable) (checked : Method)

namespace Step

/-- Checks answer whether they pass. What a value leaves to be stored is no part of that. -/
def run : Step → Run Scopes Unit
  | .openScope => Run.step fun scopes => .ok scopes.opened
  | .closeScope => Run.step Scopes.close
  | .declare binding => Run.step (Scopes.declare binding)
  | .parameter named => Run.step (Scopes.declare (.ofParameter named))
  | .assign name stored => Run.step fun scopes => .ok (scopes.assign name stored)
  | .variableLine line => Check.variableLine line
  | .value target t => Run.test fun scopes => (Check.value scopes target t).map fun _ => ()
  | .condition t => Run.test fun scopes => Check.condition scopes t
  | .call methods callee given => Run.test fun scopes => Check.call methods scopes callee given
  | .method methods checked => Check.method methods checked

end Step

def session : List Step → Scopes → List (Except Fault Unit) × Scopes
  | [], scopes => ([], scopes)
  | step :: steps, scopes =>
    let (result, after) := step.run.ending scopes
    let (results, last) := session steps after
    (result :: results, last)

end Linewise
