import Linewise.Proofs.VariableRows
import Linewise.Proofs.WrittenFronts

/-! What a line is told to be by its front, its check treats it as. A declaration adds variables of
the type and the finality that its front gives, and changes none that is there. An assignment writes
to variables that are there, and adds none. Both keep to that where they fail halfway. -/

namespace Linewise
open Text Run

/-- New variables of one type and finality stand in the current scope, and that is all that was
done. What was bound anywhere is bound to the same as before. -/
structure Scopes.Adds (isFinal : Bool) (ty : Ty) (first last : Scopes) : Prop where
  depth : last.depth = first.depth
  slots : ∀ height name, last.slot height name = first.slot height name ∨
    height = first.depth ∧ first.slot height name = none ∧
      ∃ isInitialized value, last.slot height name = some ⟨name, ty, isFinal, isInitialized, value⟩

namespace Scopes

variable {first last : Scopes} {isFinal : Bool} {ty : Ty} {name : Text}

namespace Adds

theorem refl (isFinal : Bool) (ty : Ty) (scopes : Scopes) : scopes.Adds isFinal ty scopes :=
  ⟨rfl, fun _ _ => Or.inl rfl⟩

theorem declared (adds : first.Adds isFinal ty last) (fresh : last.current.contains name = false) (isInitialized : Bool)
    (value : Option Text) :
    first.Adds isFinal ty { last with current := ⟨name, ty, isFinal, isInitialized, value⟩ :: last.current } := by
  refine ⟨adds.depth, ?_⟩
  intro height other
  rw [slot_of_declared]
  split
  · next here =>
    obtain ⟨rfl, rfl⟩ := here
    have free : last.slot last.depth name = none := by
      rw [slot_depth]
      exact Scope.get?_eq_none_iff.mpr fresh
    rcases adds.slots last.depth name with same | ⟨-, unbound, -⟩
    · exact Or.inr ⟨adds.depth, same.symm.trans free, isInitialized, value, rfl⟩
    · exact Or.inr ⟨adds.depth, unbound, isInitialized, value, rfl⟩
  · exact adds.slots height other

end Adds

/-- Assigning to a variable that can be changed changes no name, no type and no finality. -/
theorem Compares.assigned (compares : first.Compares Binding.AtMost last) {target : Binding}
    (found : last.lookup name = some target) (changeable : target.isFinal = false) (value : Option Text) :
    first.Compares Binding.AtMost (last.assign name value) :=
  compares.trans (((Grows.refl last).assign found changeable value).compares (depth_assign _ _ _))

end Scopes

namespace Fault

variable {fault : Fault}

theorem OfDeclaration.unlike (found : fault.OfDeclaration) :
    (∀ t, fault ≠ .unrecognizedLine t) ∧ ∀ name, fault ≠ .assignmentToFinal name := by
  constructor
  · rintro t rfl
    cases found with
    | value ofValue => cases ofValue
  · rintro name rfl
    cases found with
    | value ofValue => cases ofValue

theorem OfAssignment.unlike (found : fault.OfAssignment) :
    (∀ t, fault ≠ .unrecognizedLine t) ∧ (∀ name, fault ≠ .redeclaration name) ∧
      ∀ name, fault ≠ .finalWithoutValue name := by
  refine ⟨?_, ?_, ?_⟩
  all_goals
    rintro _ rfl
    cases found with
    | value ofValue => cases ofValue

end Fault

namespace FrontEffects
open Statement

variable {scopes : Scopes} {line : Text}

private theorem declare_meets (isFinal : Bool) (ty : Ty) (fragment : Fragment) :
    Meets (step (Check.declare isFinal ty fragment)) (scopes.Adds isFinal ty) (fun _ => scopes.Adds isFinal ty)
      fun fault last => fault.OfDeclaration ∧ scopes.Adds isFinal ty last := by
  intro state adds
  rw [ending_step]
  rcases VariableEffects.declare_cases isFinal ty fragment state with
    ⟨fault, failed, wrong⟩ | ⟨stored, -, fresh, -, -, passed⟩
  · rw [failed]
    exact ⟨wrong, adds⟩
  · rw [passed]
    exact adds.declared fresh _ _

private theorem assign_meets (fragment : Fragment) :
    Meets (step (Check.assign fragment)) (scopes.Compares Binding.AtMost) (fun _ => scopes.Compares Binding.AtMost)
      fun fault last => fault.OfAssignment ∧ scopes.Compares Binding.AtMost last := by
  intro state compares
  rw [ending_step]
  rcases VariableEffects.assign_cases fragment state with
    ⟨fault, failed, wrong⟩ | ⟨target, stored, -, found, changeable, -, -, passed⟩
  · rw [failed]
    exact ⟨wrong, compares⟩
  · rw [passed]
    exact compares.assigned found changeable stored

private theorem effects_of_declaration (known : ofLine line = some .declaration) :
    ∃ isFinal ty front body, IsFront isFinal ty front ∧ line.trim = front ++ body ++ [';'] ∧
      typed? line.trim = some (isFinal, ty, body ++ [';']) ∧
      (Check.variableLine line =
        (splitOutside ',' body).forM fun piece => step (Check.declare isFinal ty (Fragment.ofText piece))) ∧
      ∀ scopes, (∀ fault, (ending (Check.variableLine line) scopes).1 = .error fault → fault.OfDeclaration) ∧
        scopes.Adds isFinal ty (ending (Check.variableLine line) scopes).2 := by
  obtain ⟨isFinal, ty, body, typed, read⟩ := exists_of_declaration known
  obtain ⟨front, written, whole, -⟩ := typed?_eq_some_iff.mp typed
  have reads := VariableRows.of_pieces_declared read
  refine ⟨isFinal, ty, front, body, written, by rw [whole, List.append_assoc], typed, reads, fun scopes => ?_⟩
  rw [reads]
  exact Meets.kept (.forM fun piece _ => declare_meets isFinal ty (Fragment.ofText piece)) (.refl isFinal ty scopes)

private theorem effects_of_assignment (known : ofLine line = some .assignment) :
    ∃ body, line.trim = body ++ [';'] ∧
      (Check.variableLine line =
        (splitOutside ',' body).forM fun piece => step (Check.assign (Fragment.ofText piece))) ∧
      ∀ scopes, (∀ fault, (ending (Check.variableLine line) scopes).1 = .error fault → fault.OfAssignment) ∧
        scopes.Compares Binding.AtMost (ending (Check.variableLine line) scopes).2 := by
  obtain ⟨-, -, body, -, whole, read⟩ := exists_of_assignment known
  have reads := VariableRows.of_pieces_assigned read
  refine ⟨body, whole, reads, fun scopes => ?_⟩
  rw [reads]
  exact Meets.kept (.forM fun piece _ => assign_meets (Fragment.ofText piece)) (.refl Binding.AtMost.overlooks scopes)

/-- Each fragment of a declaration is declared with the type and the finality that the line is told by,
and each fragment of an assignment is assigned. Wherever the check ends, a declaration has added
variables of that type and finality to the current scope and has changed none, and an assignment has
added none. So neither can end at a fault of the other, and neither is found to be no such line. -/
theorem front_decides_effects (line : Text) :
    (ofLine line = some .declaration →
      ∃ isFinal ty front body, IsFront isFinal ty front ∧ line.trim = front ++ body ++ [';'] ∧
        typed? line.trim = some (isFinal, ty, body ++ [';']) ∧
        (Check.variableLine line =
          (splitOutside ',' body).forM fun piece => step (Check.declare isFinal ty (Fragment.ofText piece))) ∧
        ∀ scopes,
          (∀ fault, (ending (Check.variableLine line) scopes).1 = .error fault →
            (∀ t, fault ≠ .unrecognizedLine t) ∧ ∀ name, fault ≠ .assignmentToFinal name) ∧
          scopes.Adds isFinal ty (ending (Check.variableLine line) scopes).2) ∧
    (ofLine line = some .assignment →
      ∃ body, line.trim = body ++ [';'] ∧
        (Check.variableLine line =
          (splitOutside ',' body).forM fun piece => step (Check.assign (Fragment.ofText piece))) ∧
        ∀ scopes,
          (∀ fault, (ending (Check.variableLine line) scopes).1 = .error fault →
            (∀ t, fault ≠ .unrecognizedLine t) ∧ (∀ name, fault ≠ .redeclaration name) ∧
              ∀ name, fault ≠ .finalWithoutValue name) ∧
          scopes.Compares Binding.AtMost (ending (Check.variableLine line) scopes).2) := by
  constructor
  · intro known
    obtain ⟨isFinal, ty, front, body, written, whole, typed, reads, effects⟩ := effects_of_declaration known
    refine ⟨isFinal, ty, front, body, written, whole, typed, reads, fun scopes => ⟨?_, (effects scopes).2⟩⟩
    intro fault failed
    exact ((effects scopes).1 fault failed).unlike
  · intro known
    obtain ⟨body, whole, reads, effects⟩ := effects_of_assignment known
    refine ⟨body, whole, reads, fun scopes => ⟨?_, (effects scopes).2⟩⟩
    intro fault failed
    exact ((effects scopes).1 fault failed).unlike

/-- The first variable stays, though the second has no value. -/
example : ending (Check.variableLine "final  int a = 1, b, c = 2;".toList) {} =
    (.error (.finalWithoutValue "b".toList), ⟨[⟨"a".toList, .int, true, true, some "1".toList⟩], []⟩) := by
  decide +kernel

end FrontEffects
end Linewise
