import Linewise.Fault
import Linewise.Statement

/-! A method is what its header says and the raw lines of its body, up to the brace that
closes it. -/

namespace Linewise

structure Parameter where
  name : Text
  ty : Ty
  isFinal : Bool
  deriving DecidableEq, Repr

/-- A parameter has no value of its own, so nothing may follow its name. -/
def Parameter.ofText? (t : Text) : Option Parameter := do
  let (isFinal, ty, name) ← Statement.typed? t.trim
  if isIdentifier name then some ⟨name, ty, isFinal⟩ else none

structure Method where
  name : Text
  parameters : List Parameter
  body : List Text
  deriving DecidableEq, Repr

namespace Method

def readParameters (method : Text) : List Text → Except Fault (List Parameter)
  | [] => .ok []
  | item :: items =>
    match Parameter.ofText? item with
    | none => .error (.invalidParameter method item.trim)
    | some parameter =>
      match readParameters method items with
      | .error fault => .error fault
      | .ok parameters => .ok (parameter :: parameters)

/-- A stray comma leaves an empty item, which is no parameter. -/
def parametersOf (method t : Text) : Except Fault (List Parameter) :=
  if t.trim.isEmpty then .ok [] else readParameters method (t.splitOn ',')

def ofHeader (header : Text) (body : List Text) : Except Fault Method :=
  match Statement.methodHead? header with
  | none => .error (.malformedHeader header)
  | some (name, parameters) =>
    if isMethodName name then
      match parametersOf name parameters with
      | .error fault => .error fault
      | .ok parameters => .ok ⟨name, parameters, body⟩
    else .error (.invalidMethodName name)

end Method
end Linewise
