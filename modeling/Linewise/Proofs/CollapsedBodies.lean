import Linewise.Proofs.SqueezedChecks

/-! A body is accepted where it is accepted with its lines collapsed and gives no value that is
stretched. So it is with the global lines, and with a whole outline. -/

namespace Linewise
open Text

def Method.IsNamed (method : Method) : Prop :=
  ∀ parameter ∈ method.parameters, isIdentifier parameter.name = true

/-- The lines of the body give no value that is stretched. -/
def Method.IsWhole (method : Method) : Prop :=
  ∀ line ∈ method.body, Check.IsWhole line

def Outline.collapse (outline : Outline) : Outline :=
  ⟨outline.globals.map Text.collapse, outline.methods.collapse⟩

structure Outline.IsWhole (outline : Outline) : Prop where
  globals : ∀ line ∈ outline.globals, Check.IsWhole line
  methods : ∀ method ∈ outline.methods.methods, method.IsWhole

namespace CollapsedBodies
open Run SqueezedChecks

variable (table : MethodTable)

def Level (depth other : Nat) (first second : Scopes) : Prop :=
  depth = other ∧ first.Alike second

private theorem pure_level (depth : Nat) : AgreesTo True Scopes.Alike Level (pure depth) (pure depth) :=
  .pure fun _ _ alike => ⟨rfl, alike⟩

private theorem open_agrees : AgreesTo True Scopes.Alike (fun _ _ => Scopes.Alike)
    (step fun scopes => .ok scopes.opened) (step fun scopes => .ok scopes.opened) :=
  .step fun _ _ alike => .ok trivial alike.opened

private theorem close_agrees : AgreesTo True Scopes.Alike (fun _ _ => Scopes.Alike) (step Scopes.close) (step Scopes.close) :=
  .step fun _ _ alike => alike.close

private theorem test_agrees {sound : Prop} {check other : Scopes → Except Fault Unit}
    (agrees : ∀ first second, Scopes.Alike first second → Agrees sound (fun _ _ => True) (check first) (other second)) :
    AgreesTo sound Scopes.Alike (fun _ _ => Scopes.Alike) (test check) (test other) :=
  (AgreesTo.test agrees).promise fun _ _ _ _ kept => kept.2

theorem statement_agrees {line other : Text}
    (same : VariableLine.ofLine? other = (VariableLine.ofLine? line).map VariableLine.squeeze) (depth : Nat) (read : Statement) :
    AgreesTo (∀ t ∈ read.values line, ¬ t.IsStretched) Scopes.Alike Level (Check.statement table line depth read)
      (Check.statement table.collapse other depth read.squeeze) := by
  cases depth with
  | zero => cases read <;> exact .raise
  | succ depth =>
    cases read with
    | methodHead name parameters => exact .raise
    | blockEnd => exact (close_agrees.bind fun _ _ => pure_level depth).congr (by simp [Statement.values])
    | blockHead t =>
      have tested := test_agrees fun _ _ alike => condition_agrees alike t
      exact (tested.bind fun _ _ => open_agrees.bind fun _ _ => pure_level (depth + 2)).congr (by simp [Statement.values])
    | call callee given =>
      have tested := test_agrees fun _ _ alike => call_agrees table alike callee given
      exact (tested.bind fun _ _ => pure_level (depth + 1)).congr (by simp [Statement.values])
    | declaration | assignment =>
      exact ((variableLine_agrees same).bind fun _ _ => pure_level (depth + 1)).congr (by simp [Statement.values])
    | ret => exact (pure_level (depth + 1)).congr (by simp [Statement.values])

private theorem isWhole_iff {line : Text} {statement : Statement} (known : Statement.ofLine line = some statement) :
    Check.IsWhole line ↔ ∀ t ∈ statement.values line, ¬ t.IsStretched := by
  rw [Check.IsWhole, Check.values, known, Option.elim_some]

private theorem isWhole_trim (t : Text) : Check.IsWhole t.trim ↔ Check.IsWhole t := by
  have same : Statement.values t.trim = Statement.values t := by
    funext statement
    cases statement <;> simp [Statement.values, VariableLine.valuesOf, VariableLine.ofLine?]
  rw [Check.IsWhole, Check.IsWhole, Check.values, Check.values, Statement.ofLine_trim, same]

theorem line_agrees (depth : Nat) (t : Text) :
    AgreesTo (Check.IsWhole t) Scopes.Alike Level (Check.line table depth t) (Check.line table.collapse depth t.collapse) := by
  have read : Statement.ofLine t.collapse = (Statement.ofLine t.trim).map Statement.squeeze := by
    rw [Statement.ofLine_collapse, Statement.ofLine_trim]
  have parsed : VariableLine.ofLine? t.collapse = (VariableLine.ofLine? t.trim).map VariableLine.squeeze := by
    rw [Text.collapse, VariableLine.ofLine?_squeeze]
  unfold Check.line
  rw [trim_collapse]
  refine AgreesTo.congr (.read read ?_) (isWhole_trim t)
  intro statement known
  exact (statement_agrees table parsed depth statement).congr (isWhole_iff known).symm

theorem lines_agree (depth : Nat) (body : List Text) :
    AgreesTo (∀ line ∈ body, Check.IsWhole line) Scopes.Alike Level (Check.lines table depth body)
      (Check.lines table.collapse depth (body.map Text.collapse)) := by
  induction body generalizing depth with
  | nil => exact (pure_level depth).congr (by simp)
  | cons line body ih =>
    have goes (reached other : Nat) : AgreesTo (∀ line ∈ body, Check.IsWhole line) (Level reached other) Level
        (Check.lines table reached body) (Check.lines table.collapse other (body.map Text.collapse)) := by
      rintro first second ⟨rfl, alike⟩
      exact ih reached first second alike
    exact ((line_agrees table depth line).bind goes).congr List.forall_mem_cons.symm

theorem trailingReturn_agrees (checked : Method) :
    AgreesTo True Scopes.Alike (fun _ _ => Scopes.Alike) (Check.trailingReturn checked)
      (Check.trailingReturn checked.collapse) := by
  have last : checked.collapse.body.dropLast.getLast? = checked.body.dropLast.getLast?.map Text.collapse := by
    rw [Method.collapse, ← List.map_dropLast, List.getLast?_map]
  unfold Check.trailingReturn
  rw [last]
  cases checked.body.dropLast.getLast? with
  | none => exact .tell
  | some line =>
    dsimp only [Option.map_some]
    rw [trim_collapse, Text.collapse]
    simp only [squeeze_eq_iff ink_return]
    split
    · exact .pure fun _ _ alike => alike
    · exact .raise

theorem parameters_agree {all : List Parameter} (named : ∀ parameter ∈ all, isIdentifier parameter.name = true) :
    AgreesTo True Scopes.Alike (fun _ _ => Scopes.Alike) (Check.parameters all) (Check.parameters all) := by
  have agreed : AgreesTo (∀ parameter ∈ all, True) Scopes.Alike (fun _ _ => Scopes.Alike) (Check.parameters all)
      (Check.parameters (all.map id)) :=
    .forM fun parameter member => .step fun _ _ alike => alike.declare ⟨rfl, rfl, rfl, rfl⟩ (named parameter member)
  rw [List.map_id] at agreed
  exact agreed.congr (by simp)

theorem method_agrees {checked : Method} (named : checked.IsNamed) :
    AgreesTo checked.IsWhole Scopes.Alike (fun _ _ => Scopes.Alike) (Check.method table checked)
      (Check.method table.collapse checked.collapse) := by
  have passes : AgreesTo (True ∧ True ∧ True ∧ (∀ line ∈ checked.body, Check.IsWhole line) ∧ True) Scopes.Alike
      (fun _ _ => Scopes.Alike) (Check.method table checked) (Check.method table.collapse checked.collapse) := by
    refine (trailingReturn_agrees checked).bind fun _ _ => open_agrees.bind fun _ _ =>
      (parameters_agree named).bind fun _ _ => (lines_agree table 1 checked.body).bind ?_
    rintro depth _ first second ⟨rfl, alike⟩
    cases depth with
    | zero => exact .ok trivial alike
    | succ depth => exact .fault
  exact passes.congr (by simp [Method.IsWhole])

theorem eachMethod_agrees {methods : List Method} (named : ∀ method ∈ methods, method.IsNamed) :
    AgreesTo (∀ method ∈ methods, method.IsWhole) Scopes.Alike (fun _ _ => Scopes.Alike) (Check.eachMethod table methods)
      (Check.eachMethod table.collapse (methods.map Method.collapse)) := by
  apply AgreesTo.forM
  intro method member
  exact (AgreesTo.tell.bind fun _ _ => method_agrees table (named method member)).congr (by simp)

theorem globalLine_agrees (line : Text) :
    AgreesTo (Check.IsWhole line) Scopes.Alike (fun _ _ => Scopes.Alike) (Check.globalLine line)
      (Check.globalLine line.collapse) := by
  refine .read (Statement.ofLine_collapse line) ?_
  intro statement known
  refine AgreesTo.congr ?_ (isWhole_iff known).symm
  cases statement with
  | declaration | assignment => exact variableLine_agrees (VariableLine.ofLine?_collapse line)
  | methodHead _ _ | call _ _ | blockHead _ | blockEnd | ret => exact .raise

theorem globals_agree (lines : List Text) :
    AgreesTo (∀ line ∈ lines, Check.IsWhole line) Scopes.Alike (fun _ _ => Scopes.Alike) (Check.globals lines)
      (Check.globals (lines.map Text.collapse)) := by
  have declares : AgreesTo (∀ line ∈ lines, Check.IsWhole line) Scopes.Alike (fun _ _ => Scopes.Alike)
      (lines.forM Check.globalLine) ((lines.map Text.collapse).forM Check.globalLine) :=
    .forM fun line _ => globalLine_agrees line
  have tells : AgreesTo True Scopes.Alike (fun _ _ => Scopes.Alike)
      (current >>= fun scopes => tell (.declared scopes.global.length))
      (current >>= fun scopes => tell (.declared scopes.global.length)) :=
    fun _ _ alike => .ok trivial alike
  exact (declares.bind fun _ _ => tells).congr (by simp)

/-- An outline is accepted where it is accepted collapsed, and no line of it gives a value that is stretched. -/
theorem outline_agrees (cut : Outline) (named : ∀ method ∈ cut.methods.methods, method.IsNamed) :
    AgreesTo cut.IsWhole Scopes.Alike (fun _ _ _ _ => True) (Check.outline cut) (Check.outline cut.collapse) := by
  have ends : AgreesTo True Scopes.Alike (fun _ _ _ _ => True)
      (current >>= fun scopes => pure (Verdict.mk scopes cut.methods.size))
      (current >>= fun scopes => pure (Verdict.mk scopes cut.collapse.methods.size)) :=
    fun _ _ _ => .ok trivial trivial
  have checks := (globals_agree cut.globals).bind fun _ _ =>
    (eachMethod_agrees cut.methods named).bind fun _ _ => ends
  refine checks.congr ⟨?_, ?_⟩
  · exact fun ⟨globals, methods, _⟩ => ⟨globals, methods⟩
  · exact fun whole => ⟨whole.globals, whole.methods, trivial⟩

end CollapsedBodies
end Linewise
