import Linewise.Proofs.CollapsedBodies
import Linewise.Proofs.OutlineSegments

/-! Collapsing the lines of a program collapses its outline. No step of building it looks at more
of a line than which statement it is, until a header is read. -/

namespace Linewise
open Text

namespace MethodTable

theorem register_collapse (table : MethodTable) (method : Method) :
    Agrees True (fun after other => other = after.collapse) (table.register method)
      (table.collapse.register method.collapse) := by
  rw [register, register]
  change Agrees _ _ _ (if table.contains method.name then _ else _)
  split
  · exact .fault
  · refine .ok trivial ?_
    simp [collapse, Method.collapse, size]

end MethodTable

def OpenMethod.collapse (method : OpenMethod) : OpenMethod :=
  ⟨method.header.map Text.collapse, method.depth, method.body.map Text.collapse⟩

namespace Outline.Builder
open Run

def collapse (builder : Builder) : Builder :=
  ⟨builder.outline.collapse, builder.method?.map OpenMethod.collapse⟩

/-- The second builder is the first one collapsed. -/
def Collapses (builder other : Builder) : Prop :=
  other = builder.collapse

private theorem collapses_global (outline : Outline) (line : Text) :
    Collapses ⟨{ outline with globals := outline.globals ++ [line] }, none⟩
      ⟨{ outline.collapse with globals := outline.collapse.globals ++ [line.collapse] }, none⟩ := by
  simp [Collapses, collapse, Outline.collapse]

private theorem collapse_snoc (header : Option Text) (depth : Nat) (body : List Text) (line : Text) :
    OpenMethod.collapse ⟨header, depth, body ++ [line]⟩ =
      ⟨header.map Text.collapse, depth, body.map Text.collapse ++ [line.collapse]⟩ := by
  simp [OpenMethod.collapse]

private theorem collapses_inner (outline : Outline) (header : Option Text) (depth : Nat) (body : List Text) (line : Text) :
    Collapses ⟨outline, some ⟨header, depth, body ++ [line]⟩⟩
      ⟨outline.collapse, some ⟨header.map Text.collapse, depth, body.map Text.collapse ++ [line.collapse]⟩⟩ := by
  rw [← collapse_snoc]
  rfl

theorem close_agrees (closing : OpenMethod) :
    AgreesTo True Collapses (fun _ _ => Collapses) (close closing) (close closing.collapse) := by
  rintro builder _ rfl
  have header : closing.collapse.header.getD [] = (closing.header.getD []).collapse := by
    cases closing with
    | mk header depth body => cases header <;> rfl
  have body : closing.collapse.body = closing.body.map Text.collapse := rfl
  have made := Agrees.of_toOption (Method.toOption_ofHeader_collapse (closing.header.getD []) closing.body)
  simp only [close, ending_bind, ending_current, ending_replace, ending_test, ending_tell, header, body]
  generalize Method.ofHeader (closing.header.getD []) closing.body = first,
    Method.ofHeader (closing.header.getD []).collapse (closing.body.map Text.collapse) = second at made
  cases made with
  | fault => exact .fault
  | unsound broken => exact absurd trivial broken
  | @ok method other _ same =>
    subst same
    have registered := builder.outline.methods.register_collapse method
    have methods : builder.collapse.outline.methods = builder.outline.methods.collapse := rfl
    simp only [methods]
    generalize builder.outline.methods.register method = table,
      builder.outline.methods.collapse.register method.collapse = taken at registered
    cases registered with
    | fault => exact .fault
    | unsound broken => exact absurd trivial broken
    | ok _ same =>
      subst same
      exact .ok trivial rfl

theorem place_agrees (line : Text) (statement : Statement) :
    AgreesTo True Collapses (fun _ _ => Collapses) (place line statement) (place line.collapse statement.squeeze) := by
  rintro builder _ rfl
  rcases builder with ⟨outline, _ | ⟨header, depth, body⟩⟩
  · cases statement with
    | methodHead name parameters => exact .ok trivial rfl
    | blockHead condition | blockEnd => exact .fault
    | declaration | assignment | call callee given | ret => exact .ok trivial (collapses_global outline line)
  · cases statement with
    | methodHead name parameters => exact .fault
    | blockHead condition | declaration | assignment | call callee given | ret =>
      exact .ok trivial (collapses_inner outline header _ body line)
    | blockEnd =>
      match depth with
      | 0 => exact .fault
      | 1 =>
        have closes := close_agrees ⟨header, 1, body ++ [line]⟩
        rw [collapse_snoc] at closes
        exact closes _ _ rfl
      | depth + 2 => exact .ok trivial (collapses_inner outline header _ body line)

theorem feed_agrees (line : Text) : AgreesTo True Collapses (fun _ _ => Collapses) (feed line) (feed line.collapse) :=
  .read (Statement.ofLine_collapse line) fun statement _ => place_agrees line statement

theorem finish_agrees (builder : Builder) :
    Agrees True (fun outline other => other = outline.collapse) builder.finish builder.collapse.finish := by
  rcases builder with ⟨outline, _ | method⟩
  · exact .ok trivial rfl
  · dsimp only [finish, collapse, Option.map_some, OpenMethod.collapse]
    split
    · exact .ok trivial rfl
    · exact .fault

end Outline.Builder

namespace Outline
open Run Builder

theorem ofLines_agrees (lines : List Text) :
    Agrees True (fun outline other => other = outline.collapse) (ofLines lines) (ofLines (lines.map Text.collapse)) := by
  have fed : AgreesTo (∀ line ∈ lines, True) Collapses (fun _ _ => Collapses) (lines.forM feed)
      ((lines.map Text.collapse).forM feed) := .forM fun line _ => feed_agrees line
  have finishes : AgreesTo True Collapses (fun outline other _ _ => other = outline.collapse) (test finish) (test finish) := by
    refine (AgreesTo.test ?_).promise fun _ _ _ _ finished => finished.1
    rintro builder _ rfl
    exact finish_agrees builder
  have built := (fed.bind fun _ _ => finishes) {} {} rfl
  exact (built.result fun _ _ _ _ same => same).congr (by simp)

end Outline
end Linewise
