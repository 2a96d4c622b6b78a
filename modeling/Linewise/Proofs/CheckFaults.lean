import Linewise.Check.Call
import Linewise.Check.Condition

/-! Which faults the checks of values, calls and conditions can find. Apart from the form of a
condition, they are all about what a line means, and none is about how the lines stand. -/

namespace Linewise

namespace Fault

/-- A fault of names, values or types, and not of the shape of lines. -/
def isOfMeaning (fault : Fault) : Bool :=
  fault.kind != .structural && fault.kind != .form

inductive OfValue : Fault → Prop where
  | unknownVariable {name} : OfValue (.unknownVariable name)
  | uninitializedVariable {name} : OfValue (.uninitializedVariable name)
  | typeMismatch {name source target} : OfValue (.typeMismatch name source target)
  | invalidLiteral {t expected} : OfValue (.invalidLiteral t expected)

inductive OfDeclaration : Fault → Prop where
  | invalidIdentifier {name} : OfDeclaration (.invalidIdentifier name)
  | redeclaration {name} : OfDeclaration (.redeclaration name)
  | finalWithoutValue {name} : OfDeclaration (.finalWithoutValue name)
  | missingValue {name} : OfDeclaration (.missingValue name)
  | value {fault : Fault} (ofValue : fault.OfValue) : OfDeclaration fault

inductive OfAssignment : Fault → Prop where
  | invalidIdentifier {name} : OfAssignment (.invalidIdentifier name)
  | unknownVariable {name} : OfAssignment (.unknownVariable name)
  | assignmentToFinal {name} : OfAssignment (.assignmentToFinal name)
  | missingValue {name} : OfAssignment (.missingValue name)
  | value {fault : Fault} (ofValue : fault.OfValue) : OfAssignment fault

inductive OfCondition : Fault → Prop where
  | malformedCondition {condition} : OfCondition (.malformedCondition condition)
  | meaning {fault : Fault} (isOfMeaning : fault.isOfMeaning = true) : OfCondition fault

inductive OfBody : Fault → Prop where
  | missingReturn {method line} : OfBody (.missingReturn method line)
  | malformedCondition {condition} : OfBody (.malformedCondition condition)
  | meaning {fault : Fault} (isOfMeaning : fault.isOfMeaning = true) : OfBody fault

theorem OfValue.isOfMeaning {fault : Fault} (found : fault.OfValue) : fault.isOfMeaning = true := by
  cases found <;> rfl

theorem OfDeclaration.isOfMeaning {fault : Fault} (found : fault.OfDeclaration) : fault.isOfMeaning = true := by
  cases found with
  | value ofValue => exact ofValue.isOfMeaning
  | invalidIdentifier | redeclaration | finalWithoutValue | missingValue => rfl

theorem OfAssignment.isOfMeaning {fault : Fault} (found : fault.OfAssignment) : fault.isOfMeaning = true := by
  cases found with
  | value ofValue => exact ofValue.isOfMeaning
  | invalidIdentifier | unknownVariable | assignmentToFinal | missingValue => rfl

theorem OfCondition.ofBody {fault : Fault} (found : fault.OfCondition) : fault.OfBody := by
  cases found with
  | malformedCondition => exact .malformedCondition
  | meaning isOfMeaning => exact .meaning isOfMeaning

end Fault

namespace CheckFaults

variable {scopes : Scopes} {methods : MethodTable} {fault : Fault}

theorem of_value {target : Ty} {t : Text} (failed : Check.value scopes target t = .error fault) : fault.OfValue := by
  dsimp only [Check.value] at failed
  split at failed
  · split at failed
    · cases failed
      exact .typeMismatch
    · split at failed <;> cases failed
      exact .uninitializedVariable
  · split at failed
    · cases failed
    · split at failed <;> cases failed
      · exact .unknownVariable
      · exact .invalidLiteral

theorem of_arguments {given : List Text} {wanted : List Parameter}
    (failed : Check.arguments scopes given wanted = .error fault) : fault.isOfMeaning = true := by
  induction given generalizing wanted with
  | nil => cases failed
  | cons argument given ih =>
    cases wanted with
    | nil => cases failed
    | cons parameter wanted =>
      simp only [Check.arguments] at failed
      split at failed
      · next valued =>
        cases failed
        exact (of_value valued).isOfMeaning
      · exact ih failed

theorem of_call {callee given : Text} (failed : Check.call methods scopes callee given = .error fault) :
    fault.isOfMeaning = true := by
  dsimp only [Check.call] at failed
  split at failed
  · cases failed
    rfl
  · split at failed
    · exact of_arguments failed
    · cases failed
      rfl

theorem of_atom {t : Text} (failed : Check.atom scopes t = .error fault) : fault.OfCondition := by
  unfold Check.atom at failed
  split at failed
  · cases failed
  · split at failed
    · cases failed
      exact .malformedCondition
    · split at failed
      · cases failed
        exact .meaning rfl
      · split at failed
        · cases failed
          exact .meaning rfl
        · split at failed <;> cases failed
          exact .meaning rfl

theorem of_condition {t : Text} (failed : Check.condition scopes t = .error fault) :
    fault.OfCondition := by
  unfold Check.condition at failed
  generalize Check.atoms t = rest at failed
  induction rest with
  | nil => cases failed
  | cons atom rest ih =>
    simp only [Check.atomsOf] at failed
    split at failed
    · cases failed
      exact .malformedCondition
    · split at failed
      · next found =>
        cases failed
        exact of_atom found
      · exact ih failed

end CheckFaults
end Linewise
