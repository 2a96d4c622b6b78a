import Linewise.Check.Value
import Linewise.Run
import Linewise.VariableLine

/-! The fragments of a line take effect from left to right, up to the first that is at fault.
Each sees what those before it have done. -/

namespace Linewise.Check

/-- The value of a variable is checked before the variable can be seen, so it may name an
outer variable that this one is going to hide. -/
def declare (isFinal : Bool) (ty : Ty) (fragment : Fragment) (scopes : Scopes) : Except Fault Scopes :=
  let name := fragment.name
  if !isIdentifier name then .error (.invalidIdentifier name)
  else if scopes.current.contains name then .error (.redeclaration name)
  else match fragment.value? with
    | none =>
      if isFinal then .error (.finalWithoutValue name)
      else scopes.declare ⟨name, ty, isFinal, false, none⟩
    | some [] => .error (.missingValue name)
    | some (c :: rest) =>
      match value scopes ty (c :: rest) with
      | .error fault => .error fault
      | .ok stored => scopes.declare ⟨name, ty, isFinal, true, stored⟩

def assign (fragment : Fragment) (scopes : Scopes) : Except Fault Scopes :=
  let name := fragment.name
  if !isIdentifier name then .error (.invalidIdentifier name)
  else match scopes.lookup name with
    | none => .error (.unknownVariable name)
    | some target =>
      if target.isFinal then .error (.assignmentToFinal name)
      else match fragment.value? with
        | none | some [] => .error (.missingValue name)
        | some (c :: rest) =>
          match value scopes target.ty (c :: rest) with
          | .error fault => .error fault
          | .ok stored => .ok (scopes.assign name stored)

def variableLine (line : Text) : Run Scopes Unit :=
  match VariableLine.ofLine? line with
  | none => Run.raise (.unrecognizedLine line)
  | some (.declaration isFinal ty fragments) =>
    fragments.forM fun fragment => Run.step (declare isFinal ty fragment)
  | some (.assignment fragments) => fragments.forM fun fragment => Run.step (assign fragment)

end Linewise.Check
