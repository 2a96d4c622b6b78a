import Linewise.Source
import Linewise.Statement
import Linewise.Text.Quoted

/-! What a check tells while it goes on, in the order in which it happens. -/

namespace Linewise

inductive Event
  | refused (number : Nat) (why : Refusal)
  | read (line : Text) (statement : Statement)
  | collected (method : Text) (parameters lines : Nat)
  | declared (globals : Nat)
  | validating (method : Text)
  | noReturnCheck (method : Text)
  | opened (path : Text) (lines : Nat)
  deriving DecidableEq, Repr

namespace Event
open Text (cite)

inductive Level
  | trace
  | debug
  | info
  | warn
  deriving DecidableEq, Repr

def Level.label : Level → String
  | trace => "TRACE"
  | debug => "DEBUG"
  | info => "INFO"
  | warn => "WARN"

def level : Event → Level
  | read _ _ => .trace
  | refused _ _ | collected _ _ _ | declared _ | validating _ => .debug
  | noReturnCheck _ => .warn
  | opened _ _ => .info

def cause : Refusal → String
  | .comment => "BadComment"
  | .ending => "BadTerminator"

def message : Event → String
  | refused number why => "rejected raw line " ++ toString number ++ ": " ++ cause why
  | read line statement => "classified " ++ cite line ++ " as " ++ statement.kind
  | collected method parameters lines =>
    "collected method " ++ cite method ++ " with " ++ toString parameters ++ " parameter(s) and "
      ++ toString lines ++ " body line(s)"
  | declared globals => "declared " ++ toString globals ++ " global variable(s)"
  | validating method => "validating method " ++ cite method
  | noReturnCheck method =>
    "method " ++ cite method ++ " has no line before its closing brace, skipping the return check"
  | opened path lines => "read " ++ toString lines ++ " source line(s) from " ++ String.ofList path

def describe (event : Event) : String :=
  event.level.label ++ " " ++ event.message

end Event
end Linewise
