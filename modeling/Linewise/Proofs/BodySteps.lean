import Linewise.Check.Body
import Linewise.Proofs.BlockDepth
import Linewise.Proofs.RunEnding
import Linewise.Proofs.StatementPrefix

/-! What one line of a body can do when it is accepted. The counter moves by the weight of
the line, so a body that is accepted whole closes its block with its last line. -/

namespace Linewise.BodySteps
open Run

/-- A line, which is the given statement, is accepted at a depth and leads to another. -/
inductive Accepts (methods : MethodTable) (line : Text) : Statement → Nat → Scopes → Nat → Scopes → Prop where
  | blockEnd {depth scopes after} (closed : scopes.close = .ok after) :
      Accepts methods line .blockEnd (depth + 1) scopes depth after
  | blockHead {depth scopes t} (holds : Check.condition scopes t = .ok ()) :
      Accepts methods line (.blockHead t) (depth + 1) scopes (depth + 2) scopes.opened
  | call {depth scopes callee given} (called : Check.call methods scopes callee given = .ok ()) :
      Accepts methods line (.call callee given) (depth + 1) scopes (depth + 1) scopes
  | variableLine {depth scopes after statement} (about : statement = .declaration ∨ statement = .assignment)
      (changed : ending (Check.variableLine line.trim) scopes = (.ok (), after)) :
      Accepts methods line statement (depth + 1) scopes (depth + 1) after
  | ret {depth scopes} : Accepts methods line .ret (depth + 1) scopes (depth + 1) scopes

variable {methods : MethodTable} {line : Text} {depth next : Nat} {scopes after : Scopes}

private theorem accepts_of_statement {statement : Statement}
    (passed : ending (Check.statement methods line.trim depth statement) scopes = (.ok next, after)) :
    Accepts methods line statement depth scopes next after := by
  cases depth with
  | zero => cases statement <;> cases passed
  | succ depth =>
    cases statement with
    | methodHead name parameters => cases passed
    | blockEnd =>
      obtain ⟨_, middle, closed, ended⟩ := ending_bind_eq_ok_iff.mp passed
      cases ended
      exact .blockEnd (ending_step_eq_ok_iff.mp closed)
    | blockHead t =>
      obtain ⟨_, middle, tested, ended⟩ := ending_bind_eq_ok_iff.mp passed
      rw [ending_test, Prod.mk.injEq] at tested
      obtain ⟨holds, rfl⟩ := tested
      cases ended
      exact .blockHead holds
    | call callee given =>
      obtain ⟨_, middle, tested, ended⟩ := ending_bind_eq_ok_iff.mp passed
      rw [ending_test, Prod.mk.injEq] at tested
      obtain ⟨called, rfl⟩ := tested
      cases ended
      exact .call called
    | declaration =>
      obtain ⟨_, middle, changed, ended⟩ := ending_bind_eq_ok_iff.mp passed
      cases ended
      exact .variableLine (Or.inl rfl) changed
    | assignment =>
      obtain ⟨_, middle, changed, ended⟩ := ending_bind_eq_ok_iff.mp passed
      cases ended
      exact .variableLine (Or.inr rfl) changed
    | ret =>
      cases passed
      exact .ret

private theorem statement_of_accepts {statement : Statement}
    (accepts : Accepts methods line statement depth scopes next after) :
    ending (Check.statement methods line.trim depth statement) scopes = (.ok next, after) := by
  cases accepts with
  | blockEnd closed => exact ending_bind_of_ok (ending_step_eq_ok_iff.mpr closed)
  | @blockHead _ _ t holds =>
    have tested : ending (test fun scopes => Check.condition scopes t) scopes = (.ok (), scopes) := by
      rw [ending_test, holds]
    exact ending_bind_of_ok tested
  | @call _ _ callee given called =>
    have tested : ending (test fun scopes => Check.call methods scopes callee given) scopes = (.ok (), scopes) := by
      rw [ending_test, called]
    exact ending_bind_of_ok tested
  | variableLine about changed =>
    rcases about with rfl | rfl
    all_goals exact ending_bind_of_ok changed
  | ret => rfl

theorem ending_line_of_some {statement : Statement} (known : Statement.ofLine line = some statement)
    (depth : Nat) :
    ending (Check.line methods depth line) = ending (Check.statement methods line.trim depth statement) := by
  funext scopes
  rw [← Statement.ofLine_trim] at known
  exact ending_bind_of_ok (ending_read_of_some known scopes)

theorem ending_line_eq_ok_iff :
    ending (Check.line methods depth line) scopes = (.ok next, after) ↔
      ∃ statement, Statement.ofLine line = some statement ∧
        Accepts methods line statement depth scopes next after := by
  constructor
  · intro passed
    obtain ⟨statement, _, read, _⟩ := ending_bind_eq_ok_iff.mp passed
    have known := (ending_read_eq_ok_iff.mp read).1
    rw [Statement.ofLine_trim] at known
    rw [ending_line_of_some known] at passed
    exact ⟨statement, known, accepts_of_statement passed⟩
  · intro ⟨statement, known, accepts⟩
    rw [ending_line_of_some known]
    exact statement_of_accepts accepts

theorem lines_cons (depth : Nat) (line : Text) (lines : List Text) :
    Check.lines methods depth (line :: lines) =
      Check.line methods depth line >>= fun depth => Check.lines methods depth lines :=
  List.foldlM_cons

theorem lines_append (depth : Nat) (before after : List Text) :
    Check.lines methods depth (before ++ after) =
      Check.lines methods depth before >>= fun depth => Check.lines methods depth after :=
  List.foldlM_append

/-- The counter starts above nothing, and moves as the depth of the lines does. -/
theorem Accepts.counts {statement : Statement}
    (accepts : Accepts methods line statement depth scopes next after) :
    1 ≤ depth ∧ statement.isMethodHead = false ∧ (next : Int) = depth + statement.weight := by
  cases accepts with
  | blockEnd _ => exact ⟨by omega, rfl, by simp only [Statement.weight]; omega⟩
  | blockHead _ => exact ⟨by omega, rfl, by simp only [Statement.weight]; omega⟩
  | call _ => exact ⟨by omega, rfl, by simp [Statement.weight]⟩
  | variableLine about _ => rcases about with rfl | rfl <;> exact ⟨by omega, rfl, by simp [Statement.weight]⟩
  | ret => exact ⟨by omega, rfl, by simp [Statement.weight]⟩

/-- Lines that are accepted down to nothing are a body. -/
theorem closes_of_lines {lines : List Text}
    (passed : ending (Check.lines methods depth lines) scopes = (.ok 0, after)) : ClosesFrom depth lines := by
  induction lines generalizing depth scopes with
  | nil =>
    cases passed
    exact ClosesFrom.nil_iff.mpr rfl
  | cons line lines ih =>
    rw [lines_cons] at passed
    obtain ⟨next, middle, first, rest⟩ := ending_bind_eq_ok_iff.mp passed
    obtain ⟨statement, known, accepts⟩ := ending_line_eq_ok_iff.mp first
    obtain ⟨positive, inner, counted⟩ := accepts.counts
    refine ClosesFrom.cons_iff.mpr ⟨by omega, ⟨statement, known, inner⟩, ?_⟩
    rw [weightOf_of_ofLine known, ← counted]
    exact ih rest

/-- A method whose check ends well has a body. -/
theorem closes_of_method {checked : Method}
    (passed : ending (Check.method methods checked) scopes = (.ok (), after)) : ClosesFrom 1 checked.body := by
  obtain ⟨_, _, -, passed⟩ := ending_bind_eq_ok_iff.mp passed
  obtain ⟨_, _, -, passed⟩ := ending_bind_eq_ok_iff.mp passed
  obtain ⟨_, _, -, passed⟩ := ending_bind_eq_ok_iff.mp passed
  obtain ⟨depth, last, counted, passed⟩ := ending_bind_eq_ok_iff.mp passed
  cases depth with
  | zero => exact closes_of_lines counted
  | succ depth => cases passed

end Linewise.BodySteps
