import Linewise.Check.Program
import Linewise.Proofs.BodySteps
import Linewise.Proofs.OutlineSegments
import Linewise.Proofs.ScopeChanges

/-! The outline and the check of a body count the blocks of the same lines on their own. Where
the outline was built, the check never finds a block out of order, and what the check lets
through could have been a method of an outline. -/

namespace Linewise

/-- A fault of the lines of a body as lines: what they are, and how they open and close. -/
def Fault.isOfBlocks : Fault → Bool
  | unrecognizedLine _ | unexpectedLine _ | unmatchedEnd _ | unclosedBlock _ | globalScopeClosed => true
  | nestedMethod _ | blockOutsideMethod _ | duplicateMethod _ | invalidMethodName _ | malformedHeader _
  | invalidParameter _ _ | missingReturn _ _ | statementOutsideMethod _ | unknownVariable _
  | unknownMethod _ | redeclaration _ | invalidIdentifier _ | finalWithoutValue _ | assignmentToFinal _
  | uninitializedVariable _ | missingValue _ | invalidLiteral _ _ | typeMismatch _ _ _
  | invalidConditionType _ _ | argumentCount _ _ _ | malformedCondition _ => false

theorem Fault.OfBody.isOfBlocks {fault : Fault} (found : fault.OfBody) : fault.isOfBlocks = false := by
  cases found with
  | missingReturn => rfl
  | malformedCondition => rfl
  | meaning isOfMeaning => cases fault <;> first | rfl | cases isOfMeaning

namespace BlockAgreement
open Run VariableEffects

variable {methods : MethodTable} {base : Nat}

private theorem variableLine_meets {line : Text}
    (known : Statement.ofLine line = some .declaration ∨ Statement.ofLine line = some .assignment) (depth : Nat) :
    Meets (Check.variableLine line) (AtDepth depth) (fun _ => AtDepth depth)
      (fun fault _ => fault.isOfMeaning = true) := by
  obtain ⟨read, same⟩ := exists_variableLine known
  apply ScopeChanges.variableLine_meets (fun _ => True)
  · exact fun scopes after reached _ level => level.trans reached
  · exact fun _ _ _ meaning => meaning
  · intro unknown
    rw [same] at unknown
    cases unknown

/-- A run that starts at one depth and ends at another, or at a fault that a body in order
can have. -/
def Moves (run : Run Scopes Unit) (before after : Nat) : Prop :=
  Meets run (AtDepth before) (fun _ => AtDepth after) (fun fault _ => fault.OfBody)

private theorem moves_variables {line : Text} (depth : Nat)
    (known : Statement.ofLine line = some .declaration ∨ Statement.ofLine line = some .assignment) :
    Moves (Check.variableLine line) depth depth := by
  apply (variableLine_meets known depth).allow
  intro fault _ meaning
  exact .meaning meaning

private theorem moves_test {check : Scopes → Except Fault Unit} (depth : Nat)
    (fails : ∀ scopes fault, check scopes = .error fault → fault.OfBody) :
    Moves (test check) depth depth :=
  Meets.test (fun _ _ holds _ => holds) fun scopes fault _ failed => fails scopes fault failed

private theorem moves_opened (depth : Nat) :
    Moves (step fun scopes => .ok scopes.opened) depth (depth + 1) := by
  apply Meets.step
  · intro scopes after same opened
    cases opened
    exact congrArg Nat.succ same
  · intro scopes fault _ failed
    cases failed

private theorem moves_close (depth : Nat) : Moves (step Scopes.close) (depth + 1) depth := by
  apply Meets.step
  · intro ⟨current, enclosing⟩ after same closed
    cases enclosing with
    | nil => cases same
    | cons outer enclosing =>
      cases closed
      exact Nat.succ.inj same
  · intro ⟨current, enclosing⟩ fault same failed
    cases enclosing with
    | nil => cases same
    | cons outer enclosing => cases failed

def Counted (base : Nat) (depth : Int) (next : Nat) (scopes : Scopes) : Prop :=
  (next : Int) = depth ∧ AtDepth (base + next) scopes

private theorem statement_meets {line : Text} {statement : Statement} (depth : Nat)
    (known : Statement.ofLine line = some statement) (inner : statement.isMethodHead = false) :
    Meets (Check.statement methods line.trim (depth + 1) statement) (AtDepth (base + (depth + 1)))
      (Counted base ((depth + 1 : Nat) + statement.weight)) (fun fault _ => fault.OfBody) := by
  have ends {run : Run Scopes Unit} {next : Nat} (moves : Moves run (base + (depth + 1)) (base + next))
      (same : (next : Int) = (depth + 1 : Nat) + statement.weight) :
      Meets (run >>= fun _ => Pure.pure next) (AtDepth (base + (depth + 1)))
        (Counted base ((depth + 1 : Nat) + statement.weight)) (fun fault _ => fault.OfBody) := by
    apply Meets.bind moves
    intro _
    exact Meets.pure fun _ holds => ⟨same, holds⟩
  rw [← Statement.ofLine_trim] at known
  cases statement with
  | methodHead name parameters => cases inner
  | blockEnd => exact ends (moves_close (base + depth)) (by simp only [Statement.weight]; omega)
  | blockHead t =>
    have tested : Moves (test fun scopes => Check.condition scopes t) (base + (depth + 1)) (base + (depth + 1)) :=
      moves_test _ fun _ _ failed => (CheckFaults.of_condition failed).ofBody
    apply Meets.bind tested
    intro _
    exact ends (moves_opened (base + (depth + 1))) (by simp only [Statement.weight]; omega)
  | call callee given =>
    have tested : Moves (test fun scopes => Check.call methods scopes callee given) (base + (depth + 1))
        (base + (depth + 1)) := moves_test _ fun _ _ failed => .meaning (CheckFaults.of_call failed)
    exact ends tested (by simp [Statement.weight])
  | declaration => exact ends (moves_variables _ (Or.inl known)) (by simp [Statement.weight])
  | assignment => exact ends (moves_variables _ (Or.inr known)) (by simp [Statement.weight])
  | ret => exact Meets.pure fun _ holds => ⟨by simp [Statement.weight], holds⟩

/-- Lines that close their blocks are counted down to nothing, and the scopes of these blocks
are closed with them. -/
private theorem lines_meet {depth : Nat} {lines : List Text} (closes : ClosesFrom depth lines) :
    Meets (Check.lines methods depth lines) (AtDepth (base + depth)) (Counted base 0)
      (fun fault _ => fault.OfBody) := by
  induction lines generalizing depth with
  | nil =>
    obtain rfl : depth = 0 := by simpa using ClosesFrom.nil_iff.mp closes
    exact Meets.pure fun _ holds => ⟨rfl, holds⟩
  | cons line lines ih =>
    obtain ⟨positive, ⟨statement, known, inner⟩, rest⟩ := ClosesFrom.cons_iff.mp closes
    obtain ⟨outer, rfl⟩ : ∃ outer, depth = outer + 1 := ⟨depth - 1, by omega⟩
    rw [weightOf_of_ofLine known] at rest
    rw [BodySteps.lines_cons]
    have first : Meets (Check.line methods (outer + 1) line) (AtDepth (base + (outer + 1)))
        (Counted base ((outer + 1 : Nat) + statement.weight)) (fun fault _ => fault.OfBody) :=
      (statement_meets outer known inner).of_ending (BodySteps.ending_line_of_some known _)
    apply Meets.bind first
    intro next scopes ⟨same, reached⟩
    rw [← same] at rest
    exact ih rest scopes reached

private theorem moves_trailingReturn (checked : Method) : Moves (Check.trailingReturn checked) base base := by
  unfold Check.trailingReturn
  split
  · exact Meets.tell
  · split
    · exact Meets.pure fun _ holds => holds
    · exact Meets.raise fun _ _ => .missingReturn

private theorem moves_parameters (parameters : List Parameter) : Moves (Check.parameters parameters) base base := by
  apply Meets.forM
  intro parameter _
  apply Meets.step
  · intro scopes after same declared
    obtain ⟨-, rfl⟩ := Scopes.declare_eq_ok_iff.mp declared
    exact same
  · intro scopes fault _ failed
    unfold Scopes.declare at failed
    split at failed <;> cases failed
    exact .meaning rfl

/-- A body that closes its block is checked without a fault of blocks, and no scope of it
stays open. -/
theorem moves_method (methods : MethodTable) (base : Nat) {checked : Method} (closes : ClosesFrom 1 checked.body) :
    Moves (Check.method methods checked) base base := by
  apply Meets.bind (moves_trailingReturn checked)
  intro _
  apply Meets.bind (moves_opened base)
  intro _
  apply Meets.bind (moves_parameters checked.parameters)
  intro _
  apply Meets.bind (lines_meet closes)
  intro depth
  cases depth with
  | zero => exact Meets.pure fun _ holds => holds.2
  | succ depth =>
    intro scopes ⟨same, _⟩
    cases same

inductive OfOutline : Fault → Prop where
  | statementOutsideMethod {line} : OfOutline (.statementOutsideMethod line)
  | body {fault : Fault} (ofBody : fault.OfBody) : OfOutline fault

private theorem globalLine_meets {line : Text} {statement : Statement} (depth : Nat)
    (known : Statement.ofLine line = some statement) :
    Meets (Check.globalLine line) (AtDepth depth) (fun _ => AtDepth depth) (fun fault _ => OfOutline fault) := by
  apply Meets.bind (Meets.read known)
  intro found scopes ⟨same, holds⟩
  subst found
  have changes (about : Statement.ofLine line = some .declaration ∨ Statement.ofLine line = some .assignment) :
      Meets (Check.variableLine line) (AtDepth depth) (fun _ => AtDepth depth) (fun fault _ => OfOutline fault) := by
    apply (variableLine_meets about depth).allow
    intro fault _ meaning
    exact .body (.meaning meaning)
  cases statement with
  | declaration => exact changes (Or.inl known) scopes holds
  | assignment => exact changes (Or.inr known) scopes holds
  | methodHead _ _ | call _ _ | blockHead _ | blockEnd | ret => exact .statementOutsideMethod

/-- A program that has an outline is checked without a fault of blocks. -/
theorem outline_meets {lines : List Text} {outline : Outline} (depth : Nat)
    (built : Outline.ofLines lines = .ok outline) :
    Meets (Check.outline outline) (AtDepth depth) (fun _ _ => True) (fun fault _ => OfOutline fault) := by
  have globals : Meets (Check.globals outline.globals) (AtDepth depth) (fun _ => AtDepth depth)
      (fun fault _ => OfOutline fault) := by
    have each : Meets (outline.globals.forM Check.globalLine) (AtDepth depth) (fun _ => AtDepth depth)
        (fun fault _ => OfOutline fault) := by
      apply Meets.forM
      intro line member
      obtain ⟨statement, known, _⟩ := OutlineSegments.simple_of_mem built member
      exact globalLine_meets depth known
    apply Meets.bind each
    intro _
    apply Meets.bind Meets.current
    intro _
    exact Meets.tell
  have methods : Meets (Check.eachMethod outline.methods outline.methods.methods) (AtDepth depth)
      (fun _ => AtDepth depth) (fun fault _ => OfOutline fault) := by
    apply Meets.forM
    intro checked member
    apply Meets.bind Meets.tell
    intro _
    have moves := moves_method outline.methods depth (OutlineSegments.closes_of_mem built member)
    apply moves.allow
    intro fault _ ofBody
    exact .body ofBody
  apply Meets.bind globals
  intro _
  apply Meets.bind methods
  intro _
  apply Meets.bind Meets.current
  intro _
  exact Meets.pure fun _ _ => trivial

/-- What a check lets through is a method that an outline of its header and its body holds. -/
theorem ofLines_of_method {header : Text} {body : List Text} {checked : Method} {scopes after : Scopes}
    (made : Method.ofHeader header body = .ok checked)
    (passed : ending (Check.method methods checked) scopes = (.ok (), after)) :
    Outline.ofLines (header :: body) = .ok ⟨[], .ofMethods [checked]⟩ := by
  have closes := BodySteps.closes_of_method passed
  rw [OutlineSegments.body_of_ofHeader made] at closes
  obtain ⟨name, parameters, head⟩ := OutlineSegments.methodHead?_of_ofHeader made
  have valid : (Segment.method header body).Valid := .method (Statement.ofLine_of_methodHead? head) closes made
  have only : Segment.methodsOf [.method header body] = [checked] := by
    simp [Segment.methodsOf, Segment.method?_of_made made]
  refine OutlineSegments.ofLines_eq_ok_iff_cut.mpr ⟨[.method header body], ⟨?_, ?_, ?_⟩, ?_⟩
  · simp [Segment.linesOf, Segment.lines]
  · simpa using valid
  · simp [only]
  · rw [only]
    rfl

/-- The outline and the check agree on blocks. The methods of an outline have no fault of
blocks, and only three faults of structure or form are left for its program. A method whose
check ends well makes, with its header, an outline of its own. -/
theorem outline_and_check_agree :
    (∀ lines outline, Outline.ofLines lines = .ok outline →
      (∀ checked ∈ outline.methods.methods, ∀ methods scopes fault,
        (Check.method methods checked scopes).result = .error fault → fault.isOfBlocks = false) ∧
      ∀ scopes fault, (Check.outline outline scopes).result = .error fault →
        fault.kind = .structural ∨ fault.kind = .form →
        (∃ method line, fault = .missingReturn method line) ∨
          (∃ line, fault = .statementOutsideMethod line) ∨ ∃ t, fault = .malformedCondition t) ∧
    ∀ header body checked, Method.ofHeader header body = .ok checked →
      ∀ methods scopes, (Check.method methods checked scopes).result = .ok () →
        ∃ outline, Outline.ofLines (header :: body) = .ok outline ∧
          outline.globals = [] ∧ outline.methods.methods = [checked] := by
  constructor
  · intro lines outline built
    constructor
    · intro checked member methods scopes fault failed
      have moves := moves_method methods scopes.depth (OutlineSegments.closes_of_mem built member)
      exact (moves.of_result_error rfl failed).isOfBlocks
    · intro scopes fault failed shape
      have found := (outline_meets scopes.depth built).of_result_error rfl failed
      cases found with
      | statementOutsideMethod => exact Or.inr (Or.inl ⟨_, rfl⟩)
      | body ofBody =>
        cases ofBody with
        | missingReturn => exact Or.inl ⟨_, _, rfl⟩
        | malformedCondition => exact Or.inr (Or.inr ⟨_, rfl⟩)
        | meaning isOfMeaning => rcases shape with shape | shape <;> simp [Fault.isOfMeaning, shape] at isOfMeaning
  · intro header body checked made methods scopes passed
    have ended : ending (Check.method methods checked) scopes = (.ok (), (Check.method methods checked scopes).state) := by
      rw [ending, passed]
    exact ⟨_, ofLines_of_method made ended, rfl, MethodTable.methods_ofMethods [checked]⟩

end BlockAgreement
end Linewise
