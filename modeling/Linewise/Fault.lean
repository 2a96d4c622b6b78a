import Linewise.Text.Quoted
import Linewise.Ty

/-! What is wrong with a program. A check ends at the first fault, and a fault holds the
line, the names or the text it is about. -/

namespace Linewise

inductive Fault
  | nestedMethod (line : Text)
  | blockOutsideMethod (line : Text)
  | unmatchedEnd (line : Text)
  | unclosedBlock (method : Option Text)
  | duplicateMethod (name : Text)
  | invalidMethodName (name : Text)
  | malformedHeader (line : Text)
  | invalidParameter (method parameter : Text)
  | missingReturn (method line : Text)
  | statementOutsideMethod (line : Text)
  | unexpectedLine (line : Text)
  | globalScopeClosed
  | unknownVariable (name : Text)
  | unknownMethod (name : Text)
  | redeclaration (name : Text)
  | invalidIdentifier (name : Text)
  | finalWithoutValue (name : Text)
  | assignmentToFinal (name : Text)
  | uninitializedVariable (name : Text)
  | missingValue (name : Text)
  | invalidLiteral (value : Text) (expected : Ty)
  | typeMismatch (name : Text) (source target : Ty)
  | invalidConditionType (name : Text) (ty : Ty)
  | argumentCount (method : Text) (expected found : Nat)
  | unrecognizedLine (line : Text)
  | malformedCondition (condition : Text)
  deriving DecidableEq, Repr

namespace Fault
open Text (cite)

inductive Kind
  | structural
  | name
  | initialization
  | type
  | form
  deriving DecidableEq, Repr

def Kind.describe : Kind → String
  | .structural => "structural error"
  | .name => "name error"
  | .initialization => "initialization error"
  | .type => "type error"
  | .form => "syntax error"

def kind : Fault → Kind
  | nestedMethod _ | blockOutsideMethod _ | unmatchedEnd _ | unclosedBlock _ | duplicateMethod _
  | invalidMethodName _ | malformedHeader _ | invalidParameter _ _ | missingReturn _ _
  | statementOutsideMethod _ | unexpectedLine _ | globalScopeClosed => .structural
  | unknownVariable _ | unknownMethod _ | redeclaration _ | invalidIdentifier _ => .name
  | finalWithoutValue _ | assignmentToFinal _ | uninitializedVariable _ | missingValue _ => .initialization
  | invalidLiteral _ _ | typeMismatch _ _ _ | invalidConditionType _ _ | argumentCount _ _ _ => .type
  | unrecognizedLine _ | malformedCondition _ => .form

def spell (ty : Ty) : String :=
  String.ofList ty.keyword

def message : Fault → String
  | nestedMethod line => "nested method declaration: " ++ cite line
  | blockOutsideMethod line => "condition or loop outside of a method: " ++ cite line
  | unmatchedEnd line => "unmatched closing brace: " ++ cite line
  | unclosedBlock none => "unclosed block"
  | unclosedBlock (some method) => "unclosed block in method " ++ cite method
  | duplicateMethod name => "method " ++ cite name ++ " is declared more than once"
  | invalidMethodName name => "invalid method name " ++ cite name
  | malformedHeader line => "invalid method declaration: " ++ cite line
  | invalidParameter method parameter =>
    "invalid parameter " ++ cite parameter ++ " in method " ++ cite method
  | missingReturn method line =>
    "method " ++ cite method ++ " must end with 'return;' before its closing brace, found " ++ cite line
  | statementOutsideMethod line => "statement is not allowed outside of a method: " ++ cite line
  | unexpectedLine line => "unexpected line: " ++ cite line
  | globalScopeClosed => "the global scope cannot be closed"
  | unknownVariable name => "unknown variable " ++ cite name
  | unknownMethod name => "unknown method " ++ cite name
  | redeclaration name => "variable " ++ cite name ++ " is already declared in this scope"
  | invalidIdentifier name => "invalid identifier " ++ cite name
  | finalWithoutValue name => "final variable " ++ cite name ++ " requires an initializer"
  | assignmentToFinal name => "cannot assign to final variable " ++ cite name
  | uninitializedVariable name => "variable " ++ cite name ++ " is used before it is initialized"
  | missingValue name => "no value given for " ++ cite name
  | invalidLiteral value expected => cite value ++ " is not a valid " ++ spell expected ++ " value"
  | typeMismatch name source target =>
    "type mismatch: cannot use " ++ spell source ++ " variable " ++ cite name ++ " as " ++ spell target
  | invalidConditionType name ty =>
    "variable " ++ cite name ++ " of type " ++ spell ty ++ " cannot be used as a condition"
  | argumentCount method expected found =>
    "method " ++ cite method ++ " expects " ++ toString expected ++ " argument(s) but " ++ toString found
      ++ " were given"
  | unrecognizedLine line => "unrecognized line: " ++ cite line
  | malformedCondition condition => "malformed condition: " ++ cite condition

end Fault
end Linewise
