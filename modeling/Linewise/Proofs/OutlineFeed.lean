import Linewise.Outline
import Linewise.Proofs.BlockDepth
import Linewise.Proofs.RunEnding

/-! What one line can do to an outline that is being built. Every line that is taken is
taken in one of four ways, and it is kept as it stands in each of them. -/

namespace Linewise.Outline.Builder
open Run

inductive Takes (line : Text) : Builder → Statement → Builder → Prop where
  | global {outline statement} (simple : statement.isSimple = true) :
      Takes line ⟨outline, none⟩ statement ⟨{ outline with globals := outline.globals ++ [line] }, none⟩
  | head {outline name parameters} :
      Takes line ⟨outline, none⟩ (.methodHead name parameters) ⟨outline, some ⟨some line, 1, []⟩⟩
  | inner {outline method statement} {depth : Nat}
      (inner : statement.isMethodHead = false)
      (counted : (depth : Int) = method.depth + statement.weight)
      (within : statement = .blockEnd → depth ≠ 0) :
      Takes line ⟨outline, some method⟩ statement
        ⟨outline, some { method with depth, body := method.body ++ [line] }⟩
  | last {outline header body method methods}
      (made : Method.ofHeader (header.getD []) (body ++ [line]) = .ok method)
      (registered : outline.methods.register method = .ok methods) :
      Takes line ⟨outline, some ⟨header, 1, body⟩⟩ .blockEnd ⟨{ outline with methods := methods }, none⟩

theorem ending_close_eq_ok_iff {closing : OpenMethod} {builder after : Builder} :
    ending (close closing) builder = (.ok (), after) ↔
      ∃ method methods, Method.ofHeader (closing.header.getD []) closing.body = .ok method ∧
        builder.outline.methods.register method = .ok methods ∧
        after = ⟨{ builder.outline with methods := methods }, none⟩ := by
  simp only [close, ending_bind, ending_current, ending_replace, ending_test, ending_tell]
  cases made : Method.ofHeader (closing.header.getD []) closing.body with
  | error fault => simp
  | ok method =>
    cases registered : builder.outline.methods.register method with
    | error fault => simp [registered]
    | ok methods => simp [registered, eq_comm]

theorem ending_feed_of_some {line : Text} {statement : Statement}
    (known : Statement.ofLine line = some statement) (builder : Builder) :
    ending (feed line) builder = ending (place line statement) builder :=
  ending_bind_of_ok (ending_read_of_some known builder)

private theorem takes_of_place {line : Text} {statement : Statement} {builder after : Builder}
    (placed : ending (place line statement) builder = (.ok (), after)) :
    Takes line builder statement after := by
  rcases builder with ⟨outline, _ | ⟨header, depth, body⟩⟩
  · cases statement <;> simp [place, ending_bind] at placed
    all_goals subst after
    case methodHead => exact .head
    all_goals exact .global rfl
  · cases statement with
    | methodHead name parameters => simp [place, ending_bind] at placed
    | blockEnd =>
      match depth with
      | 0 => simp [place, ending_bind] at placed
      | 1 =>
        simp only [place, ending_bind, ending_current, ending_close_eq_ok_iff] at placed
        obtain ⟨method, methods, made, registered, rfl⟩ := placed
        exact .last made registered
      | depth + 2 =>
        simp [place, ending_bind] at placed
        subst after
        exact .inner rfl (by simp [Statement.weight]; omega) (by simp)
    | declaration | assignment | call _ _ | blockHead _ | ret =>
      simp [place, ending_bind] at placed
      subst after
      exact .inner rfl (by simp [Statement.weight]) (by simp)

private theorem place_of_takes {line : Text} {statement : Statement} {builder after : Builder}
    (taken : Takes line builder statement after) :
    ending (place line statement) builder = (.ok (), after) := by
  cases taken with
  | global simple => cases statement <;> first | rfl | cases simple
  | head => rfl
  | last made registered =>
    simp only [place, ending_bind, ending_current, ending_close_eq_ok_iff]
    exact ⟨_, _, made, registered, rfl⟩
  | @inner outline method statement depth inner counted within =>
    rcases method with ⟨header, before, body⟩
    cases statement with
    | methodHead name parameters => cases inner
    | blockEnd =>
      simp only [Statement.weight] at counted
      obtain ⟨rest, rfl⟩ : ∃ rest, depth = rest + 1 := Nat.exists_eq_succ_of_ne_zero (within rfl)
      obtain rfl : before = rest + 2 := by omega
      rfl
    | blockHead condition =>
      simp only [Statement.weight] at counted
      obtain rfl : depth = before + 1 := by omega
      rfl
    | declaration | assignment | call _ _ | ret =>
      simp only [Statement.weight] at counted
      obtain rfl : depth = before := by omega
      rfl

/-- The four ways are all the ways there are, and each of them is open. -/
theorem ending_feed_eq_ok_iff {line : Text} {builder after : Builder} :
    ending (feed line) builder = (.ok (), after) ↔
      ∃ statement, Statement.ofLine line = some statement ∧ Takes line builder statement after := by
  constructor
  · intro fed
    cases known : Statement.ofLine line with
    | none =>
      rw [feed, ending_bind_of_error (ending_read_of_none known builder)] at fed
      cases fed
    | some statement =>
      rw [ending_feed_of_some known] at fed
      exact ⟨statement, rfl, takes_of_place fed⟩
  · intro ⟨statement, known, taken⟩
    rw [ending_feed_of_some known]
    exact place_of_takes taken

end Linewise.Outline.Builder
