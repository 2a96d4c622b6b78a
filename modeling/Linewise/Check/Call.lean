import Linewise.Check.Value
import Linewise.MethodTable

/-! A call names a method of the program and gives a value for each of its parameters. -/

namespace Linewise.Check

/-- No text at all is no argument, but a comma always stands between two. -/
def argumentsOf (t : Text) : List Text :=
  if t.trim.isEmpty then [] else t.trim.splitOutside ','

def arguments (scopes : Scopes) : List Text → List Parameter → Except Fault Unit
  | argument :: rest, parameter :: parameters =>
    match value scopes parameter.ty argument with
    | .error fault => .error fault
    | .ok _ => arguments scopes rest parameters
  | _, _ => .ok ()

def call (methods : MethodTable) (scopes : Scopes) (callee given : Text) : Except Fault Unit :=
  match methods.get? callee with
  | none => .error (.unknownMethod callee)
  | some method =>
    let found := argumentsOf given
    if found.length = method.parameters.length then arguments scopes found method.parameters
    else .error (.argumentCount callee method.parameters.length found.length)

end Linewise.Check
