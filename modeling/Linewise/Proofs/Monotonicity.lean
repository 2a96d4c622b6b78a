import Linewise.Proofs.CheckComparison
import Linewise.Proofs.OuterScopes

/-! What is accepted stays accepted where more variables are initialized and more methods are
known. No check asks for a variable without a value or for a name that nobody has. So a method
that is added to an accepted program can be at fault itself, but no other method is because of
it. -/

namespace Linewise

theorem MethodTable.extendedBy_of_register {table after : MethodTable} {added : Method}
    (registered : table.register added = .ok after) : table.ExtendedBy after := by
  obtain ⟨fresh, rfl⟩ := MethodTable.register_eq_ok_iff.mp registered
  intro name method known
  refine ⟨method, ?_, rfl⟩
  unfold MethodTable.get? at known ⊢
  rw [MethodTable.position?_cons]
  cases placed : table.position? name with
  | none =>
    rw [placed] at known
    cases known
  | some position =>
    rw [placed] at known
    have apart : name ≠ added.name := by
      rintro rfl
      rw [MethodTable.contains, placed] at fresh
      cases fresh
    have inside : position < table.methods.length := (List.getElem?_eq_some_iff.mp known).1
    have same : MethodTable.position? ⟨table.methods ++ [added], table.positions⟩ name = some position := placed
    rw [if_neg apart, same]
    exact (List.getElem?_append_left inside).trans known

namespace Monotonicity
open Run CheckComparison OuterScopes

private theorem eq_ok_of_answers {result answer : Except Fault Unit}
    (answers : Answers False (· = ·) result answer) (passed : result = .ok ()) : answer = .ok () := by
  subst passed
  cases answers
  rfl

private theorem ending_eachMethod_single (table : MethodTable) (checked : Method) :
    ending (Check.eachMethod table [checked]) = ending (Check.method table checked) := by
  funext scopes
  have whole : Check.eachMethod table [checked] =
      Run.tell (.validating checked.name) >>= fun _ => Check.method table checked :=
    bind_pure (Run.tell (.validating checked.name) >>= fun _ => Check.method table checked)
  rw [whole]
  exact ending_bind_of_ok (ending_tell _ scopes)

private theorem outline_of_earlier {globals : List Text} {table more : MethodTable} {added : Method} {left last : Scopes}
    (registered : table.register added = .ok more) (declared : ending (Check.globals globals) {} = (.ok (), left))
    (checked : ending (Check.eachMethod more table.methods) left = (.ok (), last)) (fault : Fault) :
    (Check.outline ⟨globals, more⟩ {}).result = .error fault ↔ (Check.method more added last).result = .error fault := by
  have whole : more.methods = table.methods ++ [added] := by
    obtain ⟨-, rfl⟩ := MethodTable.register_eq_ok_iff.mp registered
    rfl
  have goes : ending (Check.outline ⟨globals, more⟩) {} = ending (Check.method more added >>= fun _ => do
      let scopes ← current
      pure ⟨scopes, more.size⟩) last := by
    refine (ending_bind_of_ok declared).trans ?_
    dsimp only
    rw [whole, eachMethod_append, bind_assoc, ending_bind_of_ok checked]
    exact congrFun (ending_bind_congr (ending_eachMethod_single more added) fun _ => rfl) last
  change (ending (Check.outline ⟨globals, more⟩) {}).1 = _ ↔ (ending (Check.method more added) last).1 = _
  rw [goes, ending_bind]
  rcases ending (Check.method more added) last with ⟨_ | _, after⟩
  · simp
  · exact iff_of_false nofun nofun

/-- Initialized variables and known methods never stand in the way: what passes from some scopes
with some methods passes with more of them, and leaves more. So where a program is accepted and
one more method is registered, all the others still pass, and the program is at fault exactly
where the new method is. -/
theorem acceptance_is_monotone :
    (∀ (table other : MethodTable) (first second : Scopes), table.ExtendedBy other →
      first.Compares Binding.AtMost second →
      (∀ line after, ending (Check.variableLine line) first = (.ok (), after) →
        ∃ last, ending (Check.variableLine line) second = (.ok (), last) ∧ after.Compares Binding.AtMost last) ∧
      (∀ t, Check.condition first t = .ok () → Check.condition second t = .ok ()) ∧
      (∀ callee given, Check.call table first callee given = .ok () → Check.call other second callee given = .ok ()) ∧
      ∀ checked after, ending (Check.method table checked) first = (.ok (), after) →
        ∃ last, ending (Check.method other checked) second = (.ok (), last) ∧ after.Compares Binding.AtMost last) ∧
    ∀ (globals : List Text) (table more : MethodTable) (added : Method) (verdict : Verdict),
      (Check.outline ⟨globals, table⟩ {}).result = .ok verdict → table.register added = .ok more →
      ∃ left last, ending (Check.globals globals) {} = (.ok (), left) ∧
        ending (Check.eachMethod more table.methods) left = (.ok (), last) ∧
        ∀ fault, (Check.outline ⟨globals, more⟩ {}).result = .error fault ↔
          (Check.method more added last).result = .error fault := by
  constructor
  · intro table other first second extended compares
    refine ⟨?_, ?_, ?_, ?_⟩
    · intro line after passed
      exact (variableLine_follows Binding.AtMost.overlooks line).of_ok compares passed
    · intro t passed
      exact eq_ok_of_answers (condition_answers Binding.AtMost.overlooks compares t) passed
    · intro callee given passed
      exact eq_ok_of_answers (call_answers Binding.AtMost.overlooks compares extended False.elim callee given) passed
    · intro checked after passed
      exact (method_follows Binding.AtMost.overlooks extended False.elim checked).of_ok compares passed
  · intro globals table more added verdict accepted registered
    have ended : ending (Check.outline ⟨globals, table⟩) {} =
        (.ok verdict, (Check.outline ⟨globals, table⟩ {}).state) := by
      rw [ending, accepted]
    obtain ⟨left, declared, checked, _⟩ := ending_outline_eq_ok_iff.mp ended
    have follows := eachMethod_follows Binding.AtMost.overlooks (MethodTable.extendedBy_of_register registered) False.elim table.methods
    obtain ⟨last, passed, _⟩ := follows.of_ok (.refl Binding.AtMost.overlooks left) checked
    exact ⟨left, last, declared, passed, outline_of_earlier registered declared passed⟩

end Monotonicity
end Linewise
