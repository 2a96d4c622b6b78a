import Linewise.Proofs.BodySteps
import Linewise.Proofs.Session
import Linewise.Proofs.VariableEffects
import Mathlib.Logic.Relation

/-! Everything that checks do to scopes is a row of five changes, whatever the lines say and
however the checks end. So what each of the five keeps is kept by whole sessions. The check of
a method keeps count of the scopes it has opened, and never reaches under them. -/

namespace Linewise

/-- One change of the scopes. A variable that a line declares or assigns to has a name, and what
is stored of its value was found where the scopes stood before. -/
inductive Scopes.Change (allowed : Parameter → Prop) (scopes : Scopes) : Scopes → Prop where
  | opened : Change allowed scopes scopes.opened
  | closed {after} (closed : scopes.close = .ok after) : Change allowed scopes after
  | parameter {parameter} (known : allowed parameter) (fresh : scopes.current.contains parameter.name = false) :
    Change allowed scopes { scopes with current := .ofParameter parameter :: scopes.current }
  | declared {isFinal ty stored} {fragment : Fragment} (named : isIdentifier fragment.name = true)
      (fresh : scopes.current.contains fragment.name = false) (changeable : fragment.value? = none → isFinal = false)
      (stores : fragment.Stores ty scopes stored) :
    Change allowed scopes { scopes with
      current := ⟨fragment.name, ty, isFinal, fragment.value?.isSome, stored⟩ :: scopes.current }
  | assigned {target stored} {fragment : Fragment} (found : scopes.lookup fragment.name = some target)
      (changeable : target.isFinal = false) (given : fragment.value? ≠ none)
      (stores : fragment.Stores target.ty scopes stored) :
    Change allowed scopes (scopes.assign fragment.name stored)

def Scopes.Reaches (allowed : Parameter → Prop) : Scopes → Scopes → Prop :=
  Relation.ReflTransGen (Scopes.Change allowed)

/-- Changes that leave the scopes of the outside alone, but for assignments. So many scopes are
open above them after all. -/
inductive Scopes.Climbs (allowed : Parameter → Prop) (outer : Scopes) : Nat → Scopes → Prop where
  | start : Climbs allowed outer 0 outer
  | opened {count scopes} (climbs : Climbs allowed outer count scopes) : Climbs allowed outer (count + 1) scopes.opened
  | closed {count scopes after} (climbs : Climbs allowed outer (count + 1) scopes) (closed : scopes.close = .ok after) :
    Climbs allowed outer count after
  | changed {count scopes after} (climbs : Climbs allowed outer (count + 1) scopes)
      (change : Scopes.Change allowed scopes after) (level : after.depth = scopes.depth) :
    Climbs allowed outer (count + 1) after

/-- A fault of some line of a body. The return that is missing is none, and neither is a brace
that would close the global scope, which is found to be one too many before. -/
def Fault.IsOfLine (fault : Fault) : Prop :=
  fault ≠ .globalScopeClosed ∧ ∀ method line, fault ≠ .missingReturn method line

/-- Where the check of a method can stop. Only for the return it looks before it opens a scope. -/
inductive Scopes.Halts (allowed : Parameter → Prop) (outer : Scopes) : Fault → Scopes → Prop where
  | unreturned {method line} : Halts allowed outer (.missingReturn method line) outer
  | inside {count fault scopes} (climbs : outer.Climbs allowed count scopes) (ofLine : fault.IsOfLine) :
    Halts allowed outer fault scopes

namespace Scopes

variable {allowed : Parameter → Prop} {start outer scopes last : Scopes} {count : Nat} {fault : Fault}

/-- What each change keeps, a row of them keeps. -/
theorem Reaches.keeps {holds : Scopes → Prop} (reached : start.Reaches allowed last)
    (kept : ∀ scopes after, scopes.Change allowed after → holds scopes → holds after) (held : holds start) :
    holds last := by
  induction reached with
  | refl => exact held
  | tail _ change ih => exact kept _ _ change ih

namespace Climbs

theorem reaches (climbs : outer.Climbs allowed count scopes) : outer.Reaches allowed scopes := by
  induction climbs with
  | start => exact .refl
  | opened _ ih => exact ih.tail .opened
  | closed _ closed ih => exact ih.tail (.closed closed)
  | changed _ change _ ih => exact ih.tail change

theorem depth (climbs : outer.Climbs allowed count scopes) : scopes.depth = outer.depth + count := by
  induction climbs with
  | start => rfl
  | opened _ ih => exact congrArg Nat.succ ih
  | closed _ closed ih =>
    have lowered := depth_of_close closed
    omega
  | changed _ _ level ih => exact level.trans ih

/-- Above the outside there is a scope to be closed. -/
theorem close_ne_error (climbs : outer.Climbs allowed (count + 1) scopes) : scopes.close ≠ .error fault := by
  intro failed
  have depth := climbs.depth
  rcases scopes with ⟨current, _ | ⟨next, enclosing⟩⟩
  · cases depth
  · cases failed

end Climbs
end Scopes

namespace Fault

variable {fault : Fault}

theorem IsOfLine.of_meaning (meaning : fault.isOfMeaning = true) : fault.IsOfLine := by
  constructor
  · rintro rfl
    cases meaning
  · rintro method line rfl
    cases meaning

theorem IsOfLine.of_condition (found : fault.OfCondition) : fault.IsOfLine := by
  cases found with
  | malformedCondition => exact ⟨nofun, nofun⟩
  | meaning meaning => exact .of_meaning meaning

end Fault

/-- A step that checks something or that a check could take itself. Bindings are only made from
parameters and from lines. -/
inductive Step.Regular (allowed : Parameter → Prop) : Step → Prop where
  | openScope : Regular allowed .openScope
  | closeScope : Regular allowed .closeScope
  | parameter {named} (known : allowed named) : Regular allowed (.parameter named)
  | variableLine (line : Text) : Regular allowed (.variableLine line)
  | value (target : Ty) (t : Text) : Regular allowed (.value target t)
  | condition (t : Text) : Regular allowed (.condition t)
  | call (methods : MethodTable) (callee given : Text) : Regular allowed (.call methods callee given)
  | method {checked} (methods : MethodTable) (known : ∀ parameter ∈ checked.parameters, allowed parameter) :
    Regular allowed (.method methods checked)

namespace ScopeChanges
open Run

variable {allowed : Parameter → Prop} {before : Scopes → Prop} {failing : Fault → Scopes → Prop}
  {start outer scopes : Scopes} {methods : MethodTable} {count : Nat}

private theorem declare_meets (isFinal : Bool) (ty : Ty) (fragment : Fragment)
    (changes : ∀ scopes after, before scopes → scopes.Change allowed after → after.depth = scopes.depth → before after)
    (means : ∀ scopes fault, before scopes → fault.isOfMeaning = true → failing fault scopes) :
    Meets (step (Check.declare isFinal ty fragment)) before (fun _ => before) failing := by
  intro scopes holds
  rw [ending_step]
  rcases VariableEffects.declare_cases isFinal ty fragment scopes with
    ⟨fault, failed, wrong⟩ | ⟨stored, named, fresh, changeable, stores, passed⟩
  · rw [failed]
    exact means scopes fault holds wrong.isOfMeaning
  · rw [passed]
    exact changes scopes _ holds (.declared named fresh changeable stores) rfl

private theorem assign_meets (fragment : Fragment)
    (changes : ∀ scopes after, before scopes → scopes.Change allowed after → after.depth = scopes.depth → before after)
    (means : ∀ scopes fault, before scopes → fault.isOfMeaning = true → failing fault scopes) :
    Meets (step (Check.assign fragment)) before (fun _ => before) failing := by
  intro scopes holds
  rw [ending_step]
  rcases VariableEffects.assign_cases fragment scopes with
    ⟨fault, failed, wrong⟩ | ⟨target, stored, -, found, changeable, given, stores, passed⟩
  · rw [failed]
    exact means scopes fault holds wrong.isOfMeaning
  · rw [passed]
    exact changes scopes _ holds (.assigned found changeable given stores) (Scopes.depth_assign _ _ _)

/-- The check of a line about variables changes nothing but the variables, one fragment after the
other, so what these changes keep stands where it stops. It stops over what the line means,
unless the line is about no variable. -/
theorem variableLine_meets (allowed : Parameter → Prop) (line : Text)
    (changes : ∀ scopes after, before scopes → scopes.Change allowed after → after.depth = scopes.depth → before after)
    (means : ∀ scopes fault, before scopes → fault.isOfMeaning = true → failing fault scopes)
    (unread : VariableLine.ofLine? line = none → ∀ scopes, before scopes → failing (.unrecognizedLine line) scopes) :
    Meets (Check.variableLine line) before (fun _ => before) failing := by
  unfold Check.variableLine
  split
  · next unknown => exact Meets.raise (unread unknown)
  · exact Meets.forM fun fragment _ => declare_meets _ _ fragment changes means
  · exact Meets.forM fun fragment _ => assign_meets fragment changes means

theorem change_of_parameter {parameter : Parameter} {after : Scopes} (known : allowed parameter)
    (made : scopes.declare (.ofParameter parameter) = .ok after) :
    scopes.Change allowed after ∧ after.depth = scopes.depth := by
  obtain ⟨fresh, rfl⟩ := Scopes.declare_eq_ok_iff.mp made
  exact ⟨.parameter known fresh, rfl⟩

private theorem raise_climbs {α : Type} {fault : Fault} {after : α → Scopes → Prop} (ofLine : fault.IsOfLine) :
    Meets (raise fault) (outer.Climbs allowed count) after (outer.Halts allowed) :=
  Meets.raise fun _ climbs => .inside climbs ofLine

private theorem test_climbs {check : Scopes → Except Fault Unit}
    (fails : ∀ scopes fault, check scopes = .error fault → fault.IsOfLine) :
    Meets (test check) (outer.Climbs allowed count) (fun _ => outer.Climbs allowed count) (outer.Halts allowed) :=
  Meets.test (fun _ _ climbs _ => climbs) fun scopes fault climbs failed => .inside climbs (fails scopes fault failed)

private theorem opened_climbs :
    Meets (step fun scopes => .ok scopes.opened) (outer.Climbs allowed count)
      (fun _ => outer.Climbs allowed (count + 1)) (outer.Halts allowed) := by
  apply Meets.step
  · intro scopes after climbs opened
    cases opened
    exact climbs.opened
  · intro scopes fault _ failed
    cases failed

private theorem close_climbs :
    Meets (step Scopes.close) (outer.Climbs allowed (count + 1)) (fun _ => outer.Climbs allowed count)
      (outer.Halts allowed) := by
  apply Meets.step
  · exact fun scopes after climbs closed => climbs.closed closed
  · exact fun scopes fault climbs failed => absurd failed climbs.close_ne_error

private theorem variableLine_climbs (line : Text) :
    Meets (Check.variableLine line) (outer.Climbs allowed (count + 1)) (fun _ => outer.Climbs allowed (count + 1))
      (outer.Halts allowed) := by
  apply variableLine_meets allowed
  · exact fun scopes after climbs change level => climbs.changed change level
  · exact fun scopes fault climbs meaning => .inside climbs (.of_meaning meaning)
  · exact fun _ scopes climbs => .inside climbs ⟨nofun, nofun⟩

/-- Whatever a line says, the counter and the open scopes move alike. At a counter of nothing,
where only the outside is open, no line does anything. -/
theorem statement_climbs (line : Text) (depth : Nat) (statement : Statement) :
    Meets (Check.statement methods line depth statement) (outer.Climbs allowed depth) (outer.Climbs allowed)
      (outer.Halts allowed) := by
  cases depth with
  | zero => cases statement <;> exact raise_climbs ⟨nofun, nofun⟩
  | succ depth =>
    cases statement with
    | methodHead name parameters => exact raise_climbs ⟨nofun, nofun⟩
    | blockEnd =>
      apply Meets.bind close_climbs
      exact fun _ => Meets.pure fun _ climbs => climbs
    | blockHead t =>
      apply Meets.bind (test_climbs fun _ _ failed => .of_condition (CheckFaults.of_condition failed))
      intro _
      apply Meets.bind opened_climbs
      exact fun _ => Meets.pure fun _ climbs => climbs
    | call callee given =>
      apply Meets.bind (test_climbs fun _ _ failed => .of_meaning (CheckFaults.of_call failed))
      exact fun _ => Meets.pure fun _ climbs => climbs
    | declaration | assignment =>
      apply Meets.bind (variableLine_climbs line)
      exact fun _ => Meets.pure fun _ climbs => climbs
    | ret => exact Meets.pure fun _ climbs => climbs

theorem line_climbs (depth : Nat) (t : Text) :
    Meets (Check.line methods depth t) (outer.Climbs allowed depth) (outer.Climbs allowed) (outer.Halts allowed) := by
  apply Meets.bind (Meets.readAny t.trim fun _ climbs => .inside climbs ⟨nofun, nofun⟩)
  exact fun statement => statement_climbs t.trim depth statement

theorem lines_climb (depth : Nat) (lines : List Text) :
    Meets (Check.lines methods depth lines) (outer.Climbs allowed depth) (outer.Climbs allowed) (outer.Halts allowed) := by
  induction lines generalizing depth with
  | nil => exact Meets.pure fun _ climbs => climbs
  | cons line lines ih =>
    rw [BodySteps.lines_cons]
    exact Meets.bind (line_climbs depth line) ih

private theorem parameters_climb {parameters : List Parameter} (known : ∀ parameter ∈ parameters, allowed parameter) :
    Meets (Check.parameters parameters) (outer.Climbs allowed (count + 1)) (fun _ => outer.Climbs allowed (count + 1))
      (outer.Halts allowed) := by
  apply Meets.forM
  intro parameter member
  apply Meets.step
  · intro scopes after climbs made
    obtain ⟨change, level⟩ := change_of_parameter (known parameter member) made
    exact climbs.changed change level
  · intro scopes fault climbs failed
    unfold Scopes.declare at failed
    split at failed <;> cases failed
    exact .inside climbs ⟨nofun, nofun⟩

private theorem trailingReturn_climbs (checked : Method) :
    Meets (Check.trailingReturn checked) (· = outer) (fun _ => outer.Climbs allowed 0) (outer.Halts allowed) := by
  unfold Check.trailingReturn
  split
  · rintro scopes rfl
    exact .start
  · split
    · apply Meets.pure
      rintro scopes rfl
      exact .start
    · apply Meets.raise
      rintro scopes rfl
      exact .unreturned

/-- The check of a method that ends well has closed all the scopes it opened. -/
theorem method_climbs (methods : MethodTable) (checked : Method) (outer : Scopes)
    (known : ∀ parameter ∈ checked.parameters, allowed parameter) :
    Meets (Check.method methods checked) (· = outer) (fun _ => outer.Climbs allowed 0) (outer.Halts allowed) := by
  apply Meets.bind (trailingReturn_climbs checked)
  intro _
  apply Meets.bind opened_climbs
  intro _
  apply Meets.bind (parameters_climb known)
  intro _
  apply Meets.bind (lines_climb 1 checked.body)
  intro depth
  cases depth with
  | zero => exact Meets.pure fun _ climbs => climbs
  | succ depth => exact raise_climbs ⟨nofun, nofun⟩

private theorem method_reaches {checked : Method} (known : ∀ parameter ∈ checked.parameters, allowed parameter) :
    (Check.method methods checked).Keeps (start.Reaches allowed) := by
  intro scopes reached
  -- what a method changes is counted from where its check begins, wherever that is
  have climbed := method_climbs methods checked scopes known scopes rfl
  rcases ended : ending (Check.method methods checked) scopes with ⟨fault | _, last⟩
  · rw [ended] at climbed
    cases climbed with
    | unreturned => exact reached
    | inside climbs _ => exact reached.trans climbs.reaches
  · rw [ended] at climbed
    exact reached.trans climbed.reaches

private theorem opened_reaches : (step fun scopes => .ok scopes.opened).Keeps (start.Reaches allowed) := by
  apply Keeps.step
  intro scopes after reached opened
  cases opened
  exact reached.tail .opened

theorem run_reaches {step : Step} (regular : step.Regular allowed) : step.run.Keeps (start.Reaches allowed) := by
  cases regular with
  | openScope => exact opened_reaches
  | closeScope => exact Keeps.step fun scopes after reached closed => reached.tail (.closed closed)
  | parameter known => exact Keeps.step fun scopes after reached made => reached.tail (change_of_parameter known made).1
  | variableLine line =>
    apply variableLine_meets allowed
    · exact fun scopes after reached change _ => reached.tail change
    · exact fun scopes fault reached _ => reached
    · exact fun _ scopes reached => reached
  | value target t => exact Keeps.test
  | condition t => exact Keeps.test
  | call methods callee given => exact Keeps.test
  | method methods known => exact method_reaches known

/-- A session goes on from what each step has left, so its changes make up one row. -/
theorem session_reaches {steps : List Step} (regular : ∀ step ∈ steps, step.Regular allowed)
    (reached : start.Reaches allowed scopes) : start.Reaches allowed (session steps scopes).2 := by
  induction steps generalizing scopes with
  | nil => exact reached
  | cons step steps ih =>
    have next := (run_reaches (regular step (by simp))).last reached
    exact ih (fun other member => regular other (by simp [member])) next

end ScopeChanges
end Linewise
