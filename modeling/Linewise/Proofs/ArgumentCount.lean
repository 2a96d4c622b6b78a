import Linewise.Check.Call

/-! How many arguments a call gives can be counted on its text: they are one more than the
commas between them, as far as no quote hides a comma. -/

namespace Linewise

def Text.marksFrom (mark : Char) (opened : Option Char) : Text → Nat
  | [] => 0
  | c :: rest => (if separates mark opened c then 1 else 0) + marksFrom mark (quoteAfter opened c) rest

theorem Text.length_splitFrom (mark : Char) (opened : Option Char) (t : Text) :
    (splitFrom mark opened t).length = marksFrom mark opened t + 1 := by
  induction t generalizing opened with
  | nil => rfl
  | cons c rest ih =>
    have counted := ih (quoteAfter opened c)
    rw [splitFrom, marksFrom]
    split
    · rw [List.length_cons, counted]
      omega
    · cases pieces : splitFrom mark (quoteAfter opened c) rest with
      | nil => exact absurd pieces (splitFrom_ne_nil _ _ _)
      | cons piece others =>
        rw [pieces] at counted
        rw [List.length_cons] at counted ⊢
        omega

namespace Check

def argumentCount (given : Text) : Nat :=
  if given.trim.isEmpty then 0 else given.trim.marksFrom ',' none + 1

theorem length_argumentsOf (given : Text) : (argumentsOf given).length = argumentCount given := by
  unfold argumentsOf argumentCount
  split
  · rfl
  · exact Text.length_splitFrom ',' none given.trim

/-- A call that is accepted names a method, and gives as many arguments as that has parameters. -/
theorem exists_of_call {methods : MethodTable} {scopes : Scopes} {callee given : Text}
    (called : call methods scopes callee given = .ok ()) :
    ∃ target, methods.get? callee = some target ∧ argumentCount given = target.parameters.length := by
  unfold call at called
  split at called
  · cases called
  · next target found =>
    refine ⟨target, found, ?_⟩
    rw [← length_argumentsOf]
    dsimp only at called
    split at called
    · assumption
    · cases called

end Check
end Linewise
