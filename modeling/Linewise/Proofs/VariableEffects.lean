import Linewise.Check.Variables
import Linewise.Proofs.CheckFaults
import Linewise.Proofs.RunLogic
import Linewise.Proofs.ScopeHeights
import Linewise.Proofs.StatementPrefix

/-! What a line about variables does to the scopes. A fragment adds one binding to the current
scope or writes to one that is seen, and a fragment at fault does nothing. -/

namespace Linewise

/-- The value a fragment gives is one that the type takes, and it is what is kept of it. -/
def Fragment.Stores (fragment : Fragment) (ty : Ty) (scopes : Scopes) (stored : Option Text) : Prop :=
  match fragment.value? with
  | none => stored = none
  | some t => t ≠ [] ∧ Check.value scopes ty t = .ok stored

def AtDepth (depth : Nat) (scopes : Scopes) : Prop :=
  scopes.depth = depth

namespace VariableEffects

variable {scopes after : Scopes} {fault : Fault} {fragment : Fragment}

theorem declare_cases (isFinal : Bool) (ty : Ty) (fragment : Fragment) (scopes : Scopes) :
    (∃ fault, Check.declare isFinal ty fragment scopes = .error fault ∧ fault.OfDeclaration) ∨
      ∃ stored, isIdentifier fragment.name = true ∧ scopes.current.contains fragment.name = false ∧
        (fragment.value? = none → isFinal = false) ∧ fragment.Stores ty scopes stored ∧
        Check.declare isFinal ty fragment scopes = .ok { scopes with
          current := ⟨fragment.name, ty, isFinal, fragment.value?.isSome, stored⟩ :: scopes.current } := by
  dsimp only [Check.declare]
  cases named : isIdentifier fragment.name with
  | false => exact Or.inl ⟨_, rfl, .invalidIdentifier⟩
  | true =>
    cases held : scopes.current.contains fragment.name with
    | true => exact Or.inl ⟨_, rfl, .redeclaration⟩
    | false =>
      have bound (binding : Binding) (same : binding.name = fragment.name) :
          scopes.declare binding = .ok { scopes with current := binding :: scopes.current } :=
        Scopes.declare_eq_ok_iff.mpr ⟨same ▸ held, rfl⟩
      cases given : fragment.value? with
      | none =>
        cases isFinal with
        | true => exact Or.inl ⟨_, rfl, .finalWithoutValue⟩
        | false => exact Or.inr ⟨none, rfl, rfl, fun _ => rfl, by simp [Fragment.Stores, given], bound _ rfl⟩
      | some t =>
        cases t with
        | nil => exact Or.inl ⟨_, rfl, .missingValue⟩
        | cons c t =>
          cases valued : Check.value scopes ty (c :: t) with
          | error fault => exact Or.inl ⟨fault, by simp [valued], .value (CheckFaults.of_value valued)⟩
          | ok stored =>
            refine Or.inr ⟨stored, rfl, rfl, by simp, by simp [Fragment.Stores, given, valued], ?_⟩
            simp only [Bool.not_true, Bool.false_eq_true, if_false, valued]
            exact bound _ rfl

theorem assign_cases (fragment : Fragment) (scopes : Scopes) :
    (∃ fault, Check.assign fragment scopes = .error fault ∧ fault.OfAssignment) ∨
      ∃ target stored, isIdentifier fragment.name = true ∧
        scopes.lookup fragment.name = some target ∧ target.isFinal = false ∧
        fragment.value? ≠ none ∧ fragment.Stores target.ty scopes stored ∧
        Check.assign fragment scopes = .ok (scopes.assign fragment.name stored) := by
  dsimp only [Check.assign]
  cases named : isIdentifier fragment.name with
  | false => exact Or.inl ⟨_, rfl, .invalidIdentifier⟩
  | true =>
    cases found : scopes.lookup fragment.name with
    | none => exact Or.inl ⟨_, rfl, .unknownVariable⟩
    | some target =>
      cases final : target.isFinal with
      | true => exact Or.inl ⟨.assignmentToFinal fragment.name, by simp [final], .assignmentToFinal⟩
      | false =>
        cases given : fragment.value? with
        | none => exact Or.inl ⟨.missingValue fragment.name, by simp [final], .missingValue⟩
        | some t =>
          cases t with
          | nil => exact Or.inl ⟨.missingValue fragment.name, by simp [final], .missingValue⟩
          | cons c t =>
            cases valued : Check.value scopes target.ty (c :: t) with
            | error fault => exact Or.inl ⟨fault, by simp [final, valued], .value (CheckFaults.of_value valued)⟩
            | ok stored =>
              exact Or.inr ⟨target, stored, rfl, rfl, final, by simp, by simp [Fragment.Stores, given, valued],
                by simp [final, valued]⟩

/-- A declaration that is accepted adds one binding, for a name that was free. -/
theorem exists_of_declare {isFinal : Bool} {ty : Ty} (made : Check.declare isFinal ty fragment scopes = .ok after) :
    ∃ stored, scopes.current.contains fragment.name = false ∧ after = { scopes with
      current := ⟨fragment.name, ty, isFinal, fragment.value?.isSome, stored⟩ :: scopes.current } := by
  rcases declare_cases isFinal ty fragment scopes with ⟨fault, failed, -⟩ | ⟨stored, -, fresh, -, -, passed⟩
  · rw [failed] at made
    cases made
  · rw [passed] at made
    cases made
    exact ⟨stored, fresh, rfl⟩

/-- An assignment that is accepted writes to a variable that is there and is not final. -/
theorem exists_of_assign (made : Check.assign fragment scopes = .ok after) :
    ∃ target stored, scopes.lookup fragment.name = some target ∧ target.isFinal = false ∧
      after = scopes.assign fragment.name stored := by
  rcases assign_cases fragment scopes with ⟨fault, failed, -⟩ | ⟨target, stored, -, found, changeable, -, -, passed⟩
  · rw [failed] at made
    cases made
  · rw [passed] at made
    cases made
    exact ⟨target, stored, found, changeable, rfl⟩

/-- A line that declares or assigns is about variables however it is read. -/
theorem exists_variableLine {line : Text}
    (known : Statement.ofLine line = some .declaration ∨ Statement.ofLine line = some .assignment) :
    ∃ read, VariableLine.ofLine? line = some read := by
  rcases known with known | known
  · obtain ⟨isFinal, ty, rest, typed⟩ := Statement.typed?_of_ofLine known
    exact ⟨_, Statement.ofLine?_of_typed? typed⟩
  · obtain ⟨name, rest, own⟩ := Statement.ownName?_of_ofLine known
    exact ⟨_, Statement.ofLine?_of_ownName? own⟩

end VariableEffects
end Linewise
