import Linewise.Check.Call
import Linewise.Check.Condition
import Linewise.Check.Variables
import Linewise.Outline

/-! The body of a method is checked line by line. Blocks open and close scopes as they are
counted, and a fault leaves the scopes open in which it was found. -/

namespace Linewise.Check

/-- The line before the last brace has to be the return. A body that is too short to have
such a line is let through. -/
def trailingReturn (method : Method) : Run Scopes Unit :=
  match method.body.dropLast.getLast? with
  | none => Run.tell (.noReturnCheck method.name)
  | some line =>
    if line.trim = Keyword.ret ++ [';'] then pure ()
    else Run.raise (.missingReturn method.name line.trim)

/-- What a statement does at a depth of blocks, and the depth after it. Nothing but a brace
can follow the brace that closes the method, and that brace is one too many. -/
def statement (methods : MethodTable) (line : Text) : Nat → Statement → Run Scopes Nat
  | 0, .blockEnd => Run.raise (.unmatchedEnd line)
  | 0, _ => Run.raise (.unexpectedLine line)
  | _ + 1, .methodHead _ _ => Run.raise (.unexpectedLine line)
  | depth + 1, .blockEnd => do
    Run.step Scopes.close
    pure depth
  | depth + 1, .blockHead t => do
    Run.test fun scopes => condition scopes t
    Run.step fun scopes => .ok scopes.opened
    pure (depth + 2)
  | depth + 1, .call callee given => do
    Run.test fun scopes => call methods scopes callee given
    pure (depth + 1)
  | depth + 1, .declaration => do
    variableLine line
    pure (depth + 1)
  | depth + 1, .assignment => do
    variableLine line
    pure (depth + 1)
  | depth + 1, .ret => pure (depth + 1)

def line (methods : MethodTable) (depth : Nat) (t : Text) : Run Scopes Nat := do
  let read ← Run.read t.trim
  statement methods t.trim depth read

def lines (methods : MethodTable) (depth : Nat) (body : List Text) : Run Scopes Nat :=
  body.foldlM (line methods) depth

def parameters (all : List Parameter) : Run Scopes Unit :=
  all.forM fun parameter => Run.step (Scopes.declare (.ofParameter parameter))

def method (methods : MethodTable) (checked : Method) : Run Scopes Unit := do
  trailingReturn checked
  Run.step fun scopes => .ok scopes.opened
  parameters checked.parameters
  match ← lines methods 1 checked.body with
  | 0 => pure ()
  | _ + 1 => Run.raise (.unclosedBlock (some checked.name))

end Linewise.Check
