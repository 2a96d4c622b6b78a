import Linewise.Proofs.CheckComparison
import Linewise.Proofs.Session

/-! The values that variables hold are for inspection only. Sessions that start from scopes with
other values, and write other values, find the same faults and bind the same variables. -/

namespace Linewise

structure Binding.SameButValue (first second : Binding) : Prop where
  name : second.name = first.name
  ty : second.ty = first.ty
  isFinal : second.isFinal = first.isFinal
  isInitialized : second.isInitialized = first.isInitialized

namespace StoredValues
open Run CheckComparison

theorem sameButValue_overlooks : Overlooks True Binding.SameButValue where
  ty _ _ same := same.ty
  isFinal _ _ same := same.isFinal
  initialized _ _ same initialized := same.isInitialized.trans initialized
  uninitialized _ _ _ same initialized := same.isInitialized.symm.trans initialized
  valued _ _ := ⟨rfl, rfl, rfl, rfl⟩
  assigned _ _ _ _ same := ⟨same.name, same.ty, same.isFinal, rfl⟩

/-- Two sessions take the same steps, but may write different values. -/
inductive SameSteps : List Step → List Step → Prop where
  | nil : SameSteps [] []
  | step {step steps others} (rest : SameSteps steps others) : SameSteps (step :: steps) (step :: others)
  | declare {binding other steps others} (same : binding.SameButValue other) (rest : SameSteps steps others) :
    SameSteps (.declare binding :: steps) (.declare other :: others)
  | assign {name value other steps others} (rest : SameSteps steps others) :
    SameSteps (.assign name value :: steps) (.assign name other :: others)

variable {first second : Scopes}

private theorem declare_follows {binding other : Binding} (same : binding.SameButValue other) :
    Follows True (Scopes.Compares Binding.SameButValue) (Step.declare binding).run (Step.declare other).run :=
  .step fun _ _ compares => compares.declare same.name same

private theorem assign_follows (name : Text) (value other : Option Text) :
    Follows True (Scopes.Compares Binding.SameButValue) (Step.assign name value).run (Step.assign name other).run :=
  .step fun _ _ compares => .ok (compares.assign sameButValue_overlooks name value other)

theorem run_follows (step : Step) :
    Follows True (Scopes.Compares Binding.SameButValue) step.run step.run := by
  cases step with
  | openScope => exact .step fun _ _ compares => .ok compares.opened
  | closeScope => exact .step fun _ _ compares => compares.close
  | declare binding => exact declare_follows ⟨rfl, rfl, rfl, rfl⟩
  | parameter parameter => exact declare_follows ⟨rfl, rfl, rfl, rfl⟩
  | assign name value => exact assign_follows name value value
  | variableLine line => exact variableLine_follows sameButValue_overlooks line
  | value target t =>
    apply Follows.test
    intro scopes others compares
    have valued := value_answers sameButValue_overlooks compares target t
    generalize Check.value scopes target t = stored, Check.value others target t = kept at valued
    cases valued with
    | ok _ => exact .ok rfl
    | fault => exact .fault
    | free lax => exact .free lax
  | condition t => exact .test fun _ _ compares => condition_answers sameButValue_overlooks compares t
  | call methods callee given =>
    exact .test fun _ _ compares =>
      call_answers sameButValue_overlooks compares (.refl methods) (fun _ => .refl methods) callee given
  | method methods checked => exact method_follows sameButValue_overlooks (.refl methods) (fun _ => .refl methods) checked

private theorem session_cons {step other : Step} {steps others : List Step}
    (follows : Follows True (Scopes.Compares Binding.SameButValue) step.run other.run)
    (goes : ∀ {first second : Scopes}, first.Compares Binding.SameButValue second →
      (session others second).1 = (session steps first).1 ∧
        (session steps first).2.Compares Binding.SameButValue (session others second).2)
    (compares : first.Compares Binding.SameButValue second) :
    (session (other :: others) second).1 = (session (step :: steps) first).1 ∧
      (session (step :: steps) first).2.Compares Binding.SameButValue (session (other :: others) second).2 := by
  obtain ⟨same, after⟩ := follows.same compares
  obtain ⟨rest, last⟩ := goes after
  exact ⟨List.cons_eq_cons.mpr ⟨same, rest⟩, last⟩

/-- Sessions that differ in stored values only get the same answers to all steps, faults
included, and leave scopes that differ in stored values only. -/
theorem session_ignores_values {steps others : List Step} (same : SameSteps steps others)
    (compares : first.Compares Binding.SameButValue second) :
    (session others second).1 = (session steps first).1 ∧
      (session steps first).2.Compares Binding.SameButValue (session others second).2 := by
  induction same generalizing first second with
  | nil => exact ⟨rfl, compares⟩
  | step _ ih => exact session_cons (run_follows _) ih compares
  | declare same _ ih => exact session_cons (declare_follows same) ih compares
  | assign _ ih => exact session_cons (assign_follows _ _ _) ih compares

/-- A session that writes a value, hands it on, and fails at a name and at the last brace. -/
def handingOn (value : Text) : List Step :=
  [.openScope, .assign "y".toList (some value), .variableLine "int x = y, y = z;".toList, .condition "x || y".toList,
    .closeScope, .closeScope]

def holding (value : Text) : Scopes :=
  ⟨[⟨"y".toList, .int, false, true, some value⟩], []⟩

theorem handingOn_ignores_values :
    SameSteps (handingOn ['2']) (handingOn ['3', '0']) ∧
      (holding ['1']).Compares Binding.SameButValue (holding ['4']) ∧
      (session (handingOn ['3', '0']) (holding ['4'])).1 = (session (handingOn ['2']) (holding ['1'])).1 ∧
      (session (handingOn ['2']) (holding ['1'])).2.Compares Binding.SameButValue
        (session (handingOn ['3', '0']) (holding ['4'])).2 := by
  have same : SameSteps (handingOn ['2']) (handingOn ['3', '0']) :=
    .step (.assign (.step (.step (.step (.step .nil)))))
  have compares : (holding ['1']).Compares Binding.SameButValue (holding ['4']) :=
    (Scopes.Compares.refl sameButValue_overlooks {}).declared rfl ⟨rfl, rfl, rfl, rfl⟩
  exact ⟨same, compares, session_ignores_values same compares⟩

end StoredValues
end Linewise
