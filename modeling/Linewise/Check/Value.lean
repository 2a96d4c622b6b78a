import Linewise.Literal
import Linewise.Scope

/-! A value is the name of a variable or a literal. Names are looked up first; since no
literal is a name, the order decides only which fault is found. -/

namespace Linewise.Check

/-- The text to keep for a variable that takes this value, where a value of type `target` is
wanted. A variable hands on the text it holds itself, which may be none. -/
def value (scopes : Scopes) (target : Ty) (t : Text) : Except Fault (Option Text) :=
  let t := t.trim
  match scopes.lookup t with
  | some source =>
    if !source.ty.standsFor target then .error (.typeMismatch t source.ty target)
    else if !source.isInitialized then .error (.uninitializedVariable t)
    else .ok source.value
  | none =>
    if Literal.isOf target t then .ok (some t)
    else if isIdentifier t then .error (.unknownVariable t)
    else .error (.invalidLiteral t target)

end Linewise.Check
