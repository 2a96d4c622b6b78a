import Linewise.MethodTable
import Linewise.Run

/-! An outline is a program cut into its global lines and its methods. The lines are taken
one at a time, and the blocks of the method that is open are counted, because only the brace
that closes the outermost of them ends the method. -/

namespace Linewise

structure Outline where
  globals : List Text := []
  methods : MethodTable := {}
  deriving DecidableEq, Repr

/-- The method whose lines are being collected. Its last brace uses the header up. Where that
brace fails to make a method of it, what is left stays open and can never become one. -/
structure OpenMethod where
  header : Option Text
  depth : Nat
  body : List Text
  deriving DecidableEq, Repr

structure Outline.Builder where
  outline : Outline := {}
  method? : Option OpenMethod := none
  deriving DecidableEq, Repr

namespace Outline.Builder

/-- The method is told of before its name is known to be free. -/
def close (method : OpenMethod) : Run Builder Unit := do
  let builder ← Run.current
  Run.replace { builder with method? := some ⟨none, 0, []⟩ }
  let method ← Run.test fun _ => Method.ofHeader (method.header.getD []) method.body
  Run.tell (.collected method.name method.parameters.length method.body.length)
  let methods ← Run.test fun _ => builder.outline.methods.register method
  Run.replace { outline := { builder.outline with methods := methods } }

def place (line : Text) (statement : Statement) : Run Builder Unit := do
  let builder ← Run.current
  match builder.method? with
  | none =>
    match statement with
    | .methodHead _ _ => Run.replace { builder with method? := some ⟨some line, 1, []⟩ }
    | .blockHead _ => Run.raise (.blockOutsideMethod line)
    | .blockEnd => Run.raise (.unmatchedEnd line)
    | .declaration | .assignment | .call _ _ | .ret =>
      Run.replace { builder with outline.globals := builder.outline.globals ++ [line] }
  | some method =>
    let body := method.body ++ [line]
    match statement with
    | .methodHead _ _ => Run.raise (.nestedMethod line)
    | .blockHead _ =>
      Run.replace { builder with method? := some { method with depth := method.depth + 1, body } }
    | .blockEnd =>
      match method.depth with
      | 0 => Run.raise (.unmatchedEnd line)
      | 1 => close { method with body }
      | depth + 1 => Run.replace { builder with method? := some { method with depth, body } }
    | .declaration | .assignment | .call _ _ | .ret =>
      Run.replace { builder with method? := some { method with body } }

def feed (line : Text) : Run Builder Unit := do
  let statement ← Run.read line
  place line statement

/-- The name of the method that is open, as far as a header is at hand. -/
def openName? (method : OpenMethod) : Option Text := do
  let header ← method.header
  let (name, _) ← Statement.methodHead? header
  some name

def finish (builder : Builder) : Except Fault Outline :=
  match builder.method? with
  | none => .ok builder.outline
  | some method =>
    if method.depth = 0 then .ok builder.outline else .error (.unclosedBlock (openName? method))

end Outline.Builder

namespace Outline

def build (lines : List Text) : Run Builder Outline := do
  lines.forM Builder.feed
  Run.test Builder.finish

def ofLines (lines : List Text) : Except Fault Outline :=
  (build lines {}).result

end Outline
end Linewise
