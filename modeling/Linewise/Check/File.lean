import Linewise.Check.Program
import Linewise.Reading
import Linewise.Settings
import Linewise.Source

/-! Checking a file ends with a verdict or with the first reason against it. The reasons have
a status, which is zero for none: one is for a program that is not valid, two is for a file
that was not looked at. -/

namespace Linewise

inductive Failure
  | unexpectedExtension (path expected : Text)
  | unreadable (path : Text) (fault : ReadFault)
  | refusedLines (count : Nat)
  | invalid (fault : Fault)
  deriving DecidableEq, Repr

namespace Failure

def status : Failure → Nat
  | refusedLines _ | invalid _ => 1
  | unexpectedExtension _ _ | unreadable _ _ => 2

def message : Failure → String
  | unexpectedExtension path expected =>
    Text.cite path ++ " does not have the expected ." ++ String.ofList expected ++ " extension"
  | unreadable path reason => "failed to read " ++ Text.cite path ++ ": " ++ reason.message
  | refusedLines count => toString count ++ " line(s) are not valid source lines"
  | invalid reason => reason.message

end Failure

structure Report where
  result : Except Failure Verdict
  events : List Event

namespace Report

def failed (failure : Failure) : Report :=
  ⟨.error failure, []⟩

/-- The same report with something told before it. -/
def after (events : List Event) (report : Report) : Report :=
  { report with events := events ++ report.events }

def status (report : Report) : Nat :=
  match report.result with
  | .error failure => failure.status
  | .ok _ => 0

end Report

namespace Check

/-- One refused line is enough for nothing else to be looked at. -/
def source (source : Source) : Report :=
  if source.isClean then
    match program source.lines {} with
    | ⟨.error fault, _, events⟩ => ⟨.error (.invalid fault), events⟩
    | ⟨.ok verdict, _, events⟩ => ⟨.ok verdict, events⟩
  else .failed (.refusedLines source.refused)

def refusals (content : Text) : List Event :=
  (Source.refusals content).map fun (number, why) => .refused number why

def text (content : Text) : Report :=
  (source (Source.ofText content)).after (refusals content)

/-- A text that was read from a path, which is told as soon as its lines are known. -/
def readText (path content : Text) : Report :=
  let read := Source.ofText content
  (source read).after (refusals content ++ [.opened path read.lines.length])

/-- A file with another extension is not even read. -/
def file {m : Type → Type} [Monad m] (read : Reader m) (settings : Settings) (path : Text) : m Report :=
  match settings.unmetExtension? path with
  | some expected => pure (.failed (.unexpectedExtension path expected))
  | none => do
    match ← read path with
    | .error fault => pure (.failed (.unreadable path fault))
    | .ok found => pure (readText path found)

end Check
end Linewise
