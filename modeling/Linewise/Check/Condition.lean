import Linewise.Literal
import Linewise.Scope

/-! A condition is a flat row of atoms between `&&` and `||`. Nothing groups them, so the
two operators need not be told apart. -/

namespace Linewise.Check

def isOperator (c d : Char) : Bool :=
  c == '&' && d == '&' || c == '|' && d == '|'

/-- Operators are found from left to right, and each takes its two characters. -/
def atoms : Text → List Text
  | [] => [[]]
  | [c] => [[c]]
  | c :: d :: rest =>
    if isOperator c d then [] :: atoms rest
    else match atoms (d :: rest) with
      | [] => [[c]]
      | atom :: others => (c :: atom) :: others

def atom (scopes : Scopes) (t : Text) : Except Fault Unit :=
  if Literal.isBoolean t || Literal.isNumeric t then .ok ()
  else if !isIdentifier t then .error (.malformedCondition t)
  else match scopes.lookup t with
    | none => .error (.unknownVariable t)
    | some binding =>
      if !binding.isInitialized then .error (.uninitializedVariable t)
      else if !binding.ty.isCondition then .error (.invalidConditionType t binding.ty)
      else .ok ()

/-- An empty atom is a fault of the whole condition, since an operator stands alone there. -/
def atomsOf (scopes : Scopes) (whole : Text) : List Text → Except Fault Unit
  | [] => .ok ()
  | t :: rest =>
    if t.trim.isEmpty then .error (.malformedCondition whole)
    else match atom scopes t.trim with
      | .error fault => .error fault
      | .ok () => atomsOf scopes whole rest

def condition (scopes : Scopes) (t : Text) : Except Fault Unit :=
  atomsOf scopes t (atoms t)

end Linewise.Check
