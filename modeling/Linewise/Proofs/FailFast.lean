import Linewise.Proofs.OutlineFaults
import Linewise.Proofs.StatementPrefix

/-! Building an outline ends at the first line that is not taken, whatever stands behind it. Only
the end of the lines can find a block open, and then it knows the method by name: as long as all
lines are taken, an open method remembers a header that was read once and can be read again. -/

namespace Linewise

def Outline.Builder.openBlocks (builder : Outline.Builder) : Nat :=
  builder.method?.elim 0 OpenMethod.depth

def LastMethodHead (lines : List Text) (name : Text) : Prop :=
  ∃ before header parameters after, lines = before ++ header :: after ∧
    Statement.ofLine header = some (.methodHead name parameters) ∧
    ∀ line ∈ after, ∀ other parameters, Statement.ofLine line ≠ some (.methodHead other parameters)

namespace FailFast
open Outline Outline.Builder Run

variable {lines more : List Text} {line : Text} {builder after : Builder} {fault : Fault}

/-- What a builder knows of the lines that it has taken so far. An open method has the lines
behind its header, and a depth of blocks above nothing. -/
inductive Traces : List Text → Builder → Prop where
  | outside {lines outline} : Traces lines ⟨outline, none⟩
  | inside {before header name parameters body outline depth}
      (head : Statement.ofLine header = some (.methodHead name parameters))
      (inner : ∀ line ∈ body, IsInner line) (running : depth ≠ 0) :
    Traces (before ++ header :: body) ⟨outline, some ⟨some header, depth, body⟩⟩

/-- Only a brace could lead to nothing, and such a brace ends the method. -/
theorem Traces.take {statement : Statement} (traces : Traces lines builder)
    (known : Statement.ofLine line = some statement) (taken : Takes line builder statement after) :
    Traces (lines ++ [line]) after := by
  cases taken with
  | global _ => exact .outside
  | head => exact .inside known nofun Nat.one_ne_zero
  | last _ _ => exact .outside
  | @inner _ _ _ next inner counted within =>
    cases traces with
    | @inside before header _ _ body _ depth head others running =>
      have remains : next ≠ 0 := by
        cases statement with
        | blockEnd => exact within rfl
        | methodHead _ _ | declaration | assignment | call _ _ | blockHead _ | ret =>
          simp only [Statement.weight] at counted
          omega
      rw [List.append_assoc, List.cons_append]
      refine .inside head ?_ remains
      intro other member
      rcases List.mem_append.mp member with member | member
      · exact others other member
      · cases List.mem_singleton.mp member
        exact ⟨statement, known, inner⟩

/-- The header that an open method remembers makes a method, or its name or a parameter is wrong. -/
theorem Traces.of_refuses (traces : Traces lines builder) (refuses : Refuses line builder fault after) :
    (∀ header, fault ≠ .malformedHeader header) ∧ ∀ method, fault ≠ .unclosedBlock method := by
  cases refuses with
  | unread _ | nested _ | outside _ | unopened _ | unmatched _ => constructor <;> intro _ same <;> cases same
  | unmade _ failed =>
    cases traces with
    | inside head _ _ =>
      have read := Statement.methodHead?_of_ofLine head
      cases Method.ofHeader_of_error failed with
      | malformedHeader unread =>
        rw [Option.getD_some, read] at unread
        cases unread
      | invalidMethodName | invalidParameter => constructor <;> intro _ same <;> cases same
  | taken _ _ failed =>
    rw [MethodTable.register] at failed
    split at failed <;> cases failed
    constructor <;> intro _ same <;> cases same

/-- As long as lines are taken they are traced, and the first that is not taken is at fault by itself. -/
theorem feeds (traces : Traces lines builder) (more : List Text) :
    match ending (more.forM feed) builder with
    | (.ok _, last) => Traces (lines ++ more) last
    | (.error fault, _) => (∀ header, fault ≠ .malformedHeader header) ∧ ∀ method, fault ≠ .unclosedBlock method := by
  induction more generalizing lines builder with
  | nil => rwa [List.append_nil]
  | cons line more ih =>
    rw [ending_forM_cons, ending_bind]
    rcases fed : ending (feed line) builder with ⟨fault | _, middle⟩
    · exact traces.of_refuses (refuses_of_feed fed)
    · obtain ⟨statement, known, taken⟩ := ending_feed_eq_ok_iff.mp fed
      have goes := ih (traces.take known taken)
      rwa [List.append_assoc] at goes

/-- The end of the lines finds nothing wrong but a block that is open. -/
theorem finish_eq (builder : Builder) :
    builder.finish =
      if builder.openBlocks = 0 then .ok builder.outline else .error (.unclosedBlock (builder.method?.bind openName?)) := by
  rcases builder with ⟨outline, _ | method⟩ <;> rfl

theorem Traces.finish (traces : Traces lines builder) (running : builder.openBlocks ≠ 0) :
    ∃ name, builder.finish = .error (.unclosedBlock (some name)) ∧ LastMethodHead lines name := by
  cases traces with
  | outside => exact absurd rfl running
  | @inside before header name parameters body outline depth head inner _ =>
    have named : openName? ⟨some header, depth, body⟩ = some name := by
      simp [openName?, Statement.methodHead?_of_ofLine head]
    refine ⟨name, ?_, before, header, parameters, body, rfl, head, ?_⟩
    · rw [finish_eq, if_neg running, Option.bind_some, named]
    · intro line member other others again
      obtain ⟨statement, known, notHead⟩ := inner line member
      cases known.symm.trans again
      cases notHead

theorem ofLines_of_fed (fed : ending (lines.forM feed) {} = (.ok (), builder)) :
    Outline.ofLines lines = builder.finish := by
  change (ending (lines.forM feed >>= fun _ => test finish) {}).1 = builder.finish
  rw [ending_bind_of_ok fed, ending_test]

theorem ofLines_of_refused (fed : ending (lines.forM feed) {} = (.error fault, after)) :
    Outline.ofLines lines = .error fault := by
  change (ending (lines.forM feed >>= fun _ => test finish) {}).1 = .error fault
  rw [ending_bind_of_error fed]

inductive Ends (lines : List Text) : Except Fault Outline → Prop where
  | built {builder : Builder} (fed : ending (lines.forM feed) {} = (.ok (), builder)) (closed : builder.openBlocks = 0) :
    Ends lines (.ok builder.outline)
  | unclosed {builder : Builder} {name} (fed : ending (lines.forM feed) {} = (.ok (), builder)) (running : builder.openBlocks ≠ 0)
      (named : LastMethodHead lines name) : Ends lines (.error (.unclosedBlock (some name)))
  | refused {fault : Fault} {last} (fed : ending (lines.forM feed) {} = (.error fault, last))
      (read : ∀ header, fault ≠ .malformedHeader header) (before : ∀ method, fault ≠ .unclosedBlock method) :
    Ends lines (.error fault)

theorem ofLines_ends (lines : List Text) : Ends lines (Outline.ofLines lines) := by
  have fresh : Traces [] {} := .outside
  have met := feeds fresh lines
  rcases fed : ending (lines.forM feed) {} with ⟨fault | _, builder⟩
  · rw [fed] at met
    rw [ofLines_of_refused fed]
    exact .refused fed met.1 met.2
  · rw [fed] at met
    rw [ofLines_of_fed fed]
    by_cases closed : builder.openBlocks = 0
    · rw [finish_eq, if_pos closed]
      exact .built fed closed
    · obtain ⟨name, finished, named⟩ := met.finish closed
      rw [finished]
      exact .unclosed fed closed named

/-- Lines fail where their first part does, unless that was only waiting for a block to close. -/
theorem ofLines_append_of_error (failed : Outline.ofLines lines = .error fault)
    (before : ∀ method, fault ≠ .unclosedBlock method) (more : List Text) :
    Outline.ofLines (lines ++ more) = .error fault := by
  have ends := ofLines_ends lines
  rw [failed] at ends
  cases ends with
  | unclosed _ _ _ => exact absurd rfl (before _)
  | refused fed _ _ =>
    have split : (lines ++ more).forM feed = lines.forM feed >>= fun _ => more.forM feed := List.forM_append
    apply ofLines_of_refused
    rw [split, ending_bind_of_error fed]

theorem exists_of_unclosed {method : Option Text} (failed : Outline.ofLines lines = .error (.unclosedBlock method)) :
    ∃ builder name, ending (lines.forM feed) {} = (.ok (), builder) ∧ builder.openBlocks ≠ 0 ∧
      method = some name ∧ LastMethodHead lines name := by
  have ends := ofLines_ends lines
  rw [failed] at ends
  cases ends with
  | unclosed fed running named => exact ⟨_, _, fed, running, rfl, named⟩
  | refused _ _ before => exact absurd rfl (before _)

theorem unclosed_of_fed (fed : ending (lines.forM feed) {} = (.ok (), builder)) (running : builder.openBlocks ≠ 0) :
    ∃ method, Outline.ofLines lines = .error (.unclosedBlock method) := by
  rw [ofLines_of_fed fed, finish_eq, if_neg running]
  exact ⟨_, rfl⟩

theorem ofLines_ne_malformed (lines : List Text) (header : Text) :
    Outline.ofLines lines ≠ .error (.malformedHeader header) := by
  intro failed
  have ends := ofLines_ends lines
  rw [failed] at ends
  cases ends with
  | refused _ read _ => exact read _ rfl

/-- A fault that is found before the end of the lines is found whatever follows. An open block is
found at the end only, where all lines have been taken, and it is told with the name that the
last header gives. No header is found malformed, since none is taken that is. -/
theorem outline_fails_fast :
    (∀ lines more fault, Outline.ofLines lines = .error fault → (∀ method, fault ≠ .unclosedBlock method) →
      Outline.ofLines (lines ++ more) = .error fault) ∧
    (∀ lines, (∃ method, Outline.ofLines lines = .error (.unclosedBlock method)) ↔
      ∃ builder, ending (lines.forM feed) {} = (.ok (), builder) ∧ builder.openBlocks ≠ 0) ∧
    (∀ lines method, Outline.ofLines lines = .error (.unclosedBlock method) →
      ∃ name, method = some name ∧ LastMethodHead lines name) ∧
    ∀ lines, (∀ header, Outline.ofLines lines ≠ .error (.malformedHeader header)) ∧
      Outline.ofLines lines ≠ .error (.unclosedBlock none) := by
  refine ⟨fun lines more fault failed before => ofLines_append_of_error failed before more, ?_, ?_, ?_⟩
  · intro lines
    constructor
    · intro ⟨method, failed⟩
      obtain ⟨builder, _, fed, running, _⟩ := exists_of_unclosed failed
      exact ⟨builder, fed, running⟩
    · intro ⟨builder, fed, running⟩
      exact unclosed_of_fed fed running
  · intro lines method failed
    obtain ⟨_, name, _, _, same, named⟩ := exists_of_unclosed failed
    exact ⟨name, same, named⟩
  · intro lines
    refine ⟨ofLines_ne_malformed lines, ?_⟩
    intro failed
    obtain ⟨_, _, _, _, same, _⟩ := exists_of_unclosed failed
    cases same

end FailFast
end Linewise
