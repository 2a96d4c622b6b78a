import Linewise.Proofs.OutlineFeed

/-! What a line does to an outline that does not take it. Nearly always that is nothing. Only the
last brace of a method has used the method up when it turns out that none can be made of it, or
that its name is taken. -/

namespace Linewise

namespace Fault

inductive OfPlace : Fault → Prop where
  | unrecognizedLine {line} : OfPlace (.unrecognizedLine line)
  | nestedMethod {line} : OfPlace (.nestedMethod line)
  | blockOutsideMethod {line} : OfPlace (.blockOutsideMethod line)
  | unmatchedEnd {line} : OfPlace (.unmatchedEnd line)

/-- No method can be made of a header. Only one that cannot be read is malformed. -/
inductive OfHeader (header : Text) : Fault → Prop where
  | malformedHeader (unread : Statement.methodHead? header = none) : OfHeader header (.malformedHeader header)
  | invalidMethodName {name} : OfHeader header (.invalidMethodName name)
  | invalidParameter {method parameter} : OfHeader header (.invalidParameter method parameter)

inductive OfMaking : Fault → Prop where
  | header {header} {fault : Fault} (ofHeader : fault.OfHeader header) : OfMaking fault
  | duplicateMethod {name} : OfMaking (.duplicateMethod name)

theorem OfMaking.not_ofPlace {fault : Fault} (making : fault.OfMaking) : ¬ fault.OfPlace := by
  intro ofPlace
  cases making with
  | header ofHeader => cases ofHeader <;> cases ofPlace
  | duplicateMethod => cases ofPlace

end Fault

namespace Method

variable {header : Text} {body : List Text} {fault : Fault}

private theorem exists_of_readParameters {name : Text} {items : List Text}
    (failed : readParameters name items = .error fault) : ∃ parameter, fault = .invalidParameter name parameter := by
  induction items with
  | nil => cases failed
  | cons item items ih =>
    rw [readParameters] at failed
    split at failed
    · cases failed
      exact ⟨_, rfl⟩
    · split at failed
      · next later =>
        cases failed
        exact ih later
      · cases failed

private theorem exists_of_parametersOf {name t : Text} (failed : parametersOf name t = .error fault) :
    ∃ parameter, fault = .invalidParameter name parameter := by
  rw [parametersOf] at failed
  split at failed
  · cases failed
  · exact exists_of_readParameters failed

theorem ofHeader_of_error (failed : ofHeader header body = .error fault) : fault.OfHeader header := by
  rw [ofHeader] at failed
  split at failed
  · next unread =>
    cases failed
    exact .malformedHeader unread
  · split at failed
    · split at failed
      · next unread =>
        cases failed
        obtain ⟨parameter, rfl⟩ := exists_of_parametersOf unread
        exact .invalidParameter
      · cases failed
    · cases failed
      exact .invalidMethodName

end Method

namespace Outline.Builder
open Run

/-- A builder does not take a line, and becomes another by that. -/
inductive Refuses (line : Text) : Builder → Fault → Builder → Prop where
  | unread {builder} (unknown : Statement.ofLine line = none) :
    Refuses line builder (.unrecognizedLine line.trim) builder
  | nested {outline method name parameters} (known : Statement.ofLine line = some (.methodHead name parameters)) :
    Refuses line ⟨outline, some method⟩ (.nestedMethod line) ⟨outline, some method⟩
  | outside {outline t} (known : Statement.ofLine line = some (.blockHead t)) :
    Refuses line ⟨outline, none⟩ (.blockOutsideMethod line) ⟨outline, none⟩
  | unopened {outline} (known : Statement.ofLine line = some .blockEnd) :
    Refuses line ⟨outline, none⟩ (.unmatchedEnd line) ⟨outline, none⟩
  | unmatched {outline header body} (known : Statement.ofLine line = some .blockEnd) :
    Refuses line ⟨outline, some ⟨header, 0, body⟩⟩ (.unmatchedEnd line) ⟨outline, some ⟨header, 0, body⟩⟩
  | unmade {outline header body fault} (known : Statement.ofLine line = some .blockEnd)
      (failed : Method.ofHeader (header.getD []) (body ++ [line]) = .error fault) :
    Refuses line ⟨outline, some ⟨header, 1, body⟩⟩ fault ⟨outline, some ⟨none, 0, []⟩⟩
  | taken {outline header body made fault} (known : Statement.ofLine line = some .blockEnd)
      (makes : Method.ofHeader (header.getD []) (body ++ [line]) = .ok made)
      (failed : outline.methods.register made = .error fault) :
    Refuses line ⟨outline, some ⟨header, 1, body⟩⟩ fault ⟨outline, some ⟨none, 0, []⟩⟩

variable {line : Text} {builder after : Builder} {fault : Fault}

theorem ending_close_eq_error_iff {closing : OpenMethod} :
    ending (close closing) builder = (.error fault, after) ↔
      after = ⟨builder.outline, some ⟨none, 0, []⟩⟩ ∧
        (Method.ofHeader (closing.header.getD []) closing.body = .error fault ∨
          ∃ method, Method.ofHeader (closing.header.getD []) closing.body = .ok method ∧
            builder.outline.methods.register method = .error fault) := by
  simp only [close, ending_bind, ending_current, ending_replace, ending_test, ending_tell]
  cases made : Method.ofHeader (closing.header.getD []) closing.body with
  | error found => simp [eq_comm, and_comm]
  | ok method =>
    cases registered : builder.outline.methods.register method with
    | error found => simp [registered, eq_comm, and_comm]
    | ok methods => simp [registered]

private theorem refuses_of_place {statement : Statement} (known : Statement.ofLine line = some statement)
    (placed : ending (place line statement) builder = (.error fault, after)) : Refuses line builder fault after := by
  rcases builder with ⟨outline, _ | ⟨header, depth, body⟩⟩
  · cases statement with
    | blockHead t =>
      cases placed
      exact .outside known
    | blockEnd =>
      cases placed
      exact .unopened known
    | methodHead _ _ | declaration | assignment | call _ _ | ret => cases placed
  · cases statement with
    | methodHead name parameters =>
      cases placed
      exact .nested known
    | blockEnd =>
      match depth with
      | 0 =>
        cases placed
        exact .unmatched known
      | 1 =>
        simp only [place, ending_bind, ending_current, ending_close_eq_error_iff] at placed
        obtain ⟨rfl, failed | ⟨made, makes, failed⟩⟩ := placed
        · exact .unmade known failed
        · exact .taken known makes failed
      | depth + 2 => cases placed
    | declaration | assignment | call _ _ | blockHead _ | ret => cases placed

theorem refuses_of_feed (fed : ending (feed line) builder = (.error fault, after)) :
    Refuses line builder fault after := by
  cases known : Statement.ofLine line with
  | none =>
    rw [feed, ending_bind_of_error (ending_read_of_none known builder)] at fed
    cases fed
    exact .unread known
  | some statement =>
    rw [ending_feed_of_some known] at fed
    exact refuses_of_place known fed

/-- A brace that has used its method up is at fault over the making of it. -/
theorem Refuses.cases_on_fault (refuses : Refuses line builder fault after) :
    fault.OfPlace ∧ after = builder ∨
      fault.OfMaking ∧ after = ⟨builder.outline, some ⟨none, 0, []⟩⟩ := by
  cases refuses with
  | unread _ => exact Or.inl ⟨.unrecognizedLine, rfl⟩
  | nested _ => exact Or.inl ⟨.nestedMethod, rfl⟩
  | outside _ => exact Or.inl ⟨.blockOutsideMethod, rfl⟩
  | unopened _ | unmatched _ => exact Or.inl ⟨.unmatchedEnd, rfl⟩
  | unmade _ failed => exact Or.inr ⟨.header (Method.ofHeader_of_error failed), rfl⟩
  | taken _ _ failed =>
    rw [MethodTable.register] at failed
    split at failed <;> cases failed
    exact Or.inr ⟨.duplicateMethod, rfl⟩

end Outline.Builder
end Linewise
