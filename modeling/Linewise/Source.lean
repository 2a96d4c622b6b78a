import Linewise.Text.Lines

/-! Raw lines are kept with their words collapsed, skipped, or refused. A comment has a line
to itself and starts in its first column; any other comment is refused, and so is a line
that does not end as statements and blocks do. -/

namespace Linewise

inductive Refusal
  | comment
  | ending
  deriving DecidableEq, Repr

inductive RawLine
  | kept (line : Text)
  | skipped
  | refused (why : Refusal)
  deriving DecidableEq, Repr

namespace RawLine

def startsComment : Text → Bool
  | '/' :: '/' :: _ => true
  | _ => false

def opensBlockComment : Text → Bool
  | [] => false
  | [_] => false
  | c :: d :: rest => (c == '/' && d == '*') || opensBlockComment (d :: rest)

def isEnding (c : Char) : Bool :=
  c == ';' || c == '{' || c == '}'

/-- Block comments are looked for in quotes too. -/
def ofText (line : Text) : RawLine :=
  if line.trim.isEmpty || startsComment line then skipped
  else if opensBlockComment line || startsComment line.trimLeft then refused .comment
  else if line.trimRight.getLast?.any isEnding then kept line.collapse
  else refused .ending

def kept? : RawLine → Option Text
  | kept line => some line
  | skipped | refused _ => none

def refused? : RawLine → Option Refusal
  | refused why => some why
  | kept _ | skipped => none

def isRefused (line : RawLine) : Bool :=
  line.refused?.isSome

end RawLine

/-- What is left to check of a text, and how many of its lines were refused. -/
structure Source where
  lines : List Text
  refused : Nat
  deriving DecidableEq, Repr

namespace Source

def ofText (content : Text) : Source :=
  let raw := content.lines.map RawLine.ofText
  ⟨raw.filterMap RawLine.kept?, raw.countP RawLine.isRefused⟩

/-- The refused lines by their numbers, which count from one. -/
def refusals (content : Text) : List (Nat × Refusal) :=
  (content.lines.zipIdx 1).filterMap fun (line, number) =>
    (RawLine.ofText line).refused?.map fun why => (number, why)

def isClean (source : Source) : Bool :=
  source.refused == 0

end Source
end Linewise
