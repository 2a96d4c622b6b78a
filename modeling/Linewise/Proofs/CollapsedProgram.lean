import Linewise.Proofs.AcceptedProgram
import Linewise.Proofs.BindingHistory
import Linewise.Proofs.CollapsedOutline

/-! Lines are checked with their words collapsed. That makes no difference to what is accepted, but
for one thing: some blanks in single quotes are no character in the text, and are one when they
are collapsed. -/

namespace Linewise
open Text

/-- The lines of a text that are not skipped, as they stand. -/
def Source.rawLines (content : Text) : List Text :=
  content.lines.filter fun line => RawLine.ofText line != .skipped

namespace Method

private theorem isRead_of_readParameters {method : Text} {items : List Text} {all : List Parameter}
    (read : readParameters method items = .ok all) : ∀ parameter ∈ all, parameter.IsRead := by
  induction items generalizing all with
  | nil =>
    cases read
    exact nofun
  | cons item items ih =>
    rw [readParameters] at read
    split at read
    · cases read
    · next parameter found =>
      split at read
      · cases read
      · next others rest =>
        cases read
        exact List.forall_mem_cons.mpr ⟨⟨item, found⟩, ih rest⟩

theorem isNamed_of_ofHeader {header : Text} {body : List Text} {made : Method}
    (makes : ofHeader header body = .ok made) : made.IsNamed := by
  obtain ⟨-, -, t, -, read⟩ := ofHeader_eq_ok_iff.mp makes
  intro parameter member
  unfold parametersOf at read
  split at read
  · rw [← Except.ok.inj read] at member
    cases member
  · exact (isRead_of_readParameters read parameter member).named

end Method

namespace CollapsedProgram
open Segment Run

variable {lines : List Text} {cut : List Segment}

private theorem isNamed_of_mem (isCut : IsCut lines cut) {method : Method} (member : method ∈ methodsOf cut) :
    method.IsNamed := by
  obtain ⟨_, _, _, makes⟩ := OutlineSegments.exists_of_mem_methodsOf isCut member
  exact Method.isNamed_of_ofHeader makes

/-- Headers give no values, and all other lines of a program are in its outline. -/
theorem isWhole_iff_of_cut (isCut : IsCut lines cut) :
    Outline.IsWhole ⟨globalsOf cut, .ofMethods (methodsOf cut)⟩ ↔ ∀ line ∈ lines, Check.IsWhole line := by
  constructor
  · intro whole line member
    rw [← isCut.whole] at member
    obtain ⟨segment, inCut, inSegment⟩ := List.mem_flatMap.mp member
    cases isCut.valid segment inCut with
    | global known simple =>
      cases List.mem_singleton.mp inSegment
      exact whole.globals line (OutlineSegments.mem_globalsOf_iff.mpr inCut)
    | @method header name parameters body made head closes makes =>
      rcases List.mem_cons.mp inSegment with rfl | inBody
      · intro t given
        rw [Check.values, head] at given
        cases given
      · have listed : made ∈ methodsOf cut := List.mem_filterMap.mpr ⟨_, inCut, method?_of_made makes⟩
        have bodies := whole.methods made (by rwa [MethodTable.methods_ofMethods])
        exact bodies line (by rwa [OutlineSegments.body_of_ofHeader makes])
  · intro whole
    constructor
    · intro line member
      exact whole line (AcceptedProgram.mem_of_mem_globalsOf isCut member)
    · intro method member line inBody
      rw [MethodTable.methods_ofMethods] at member
      exact whole line (AcceptedProgram.mem_of_mem_body isCut member inBody)

theorem result_program (lines : List Text) :
    (Check.program lines {}).result =
      match Outline.ofLines lines with
      | .error fault => .error fault
      | .ok cut => (ending (Check.outline cut) {}).1 := by
  change (ending (Check.program lines) {}).1 = _
  rw [Check.program, ending_bind, ending_within]
  have built : (ending (Outline.build lines) {}).1 = Outline.ofLines lines := rfl
  rw [built]
  cases Outline.ofLines lines <;> rfl

private theorem alike_empty : Scopes.Alike {} {} :=
  ⟨.refl StoredValues.sameButValue_overlooks {}, nofun, nofun⟩

/-- A program is accepted where it is accepted collapsed and gives no value that is stretched. -/
theorem program_agrees (lines : List Text) :
    Agrees (∀ line ∈ lines, Check.IsWhole line) (fun _ _ => True) (Check.program lines {}).result
      (Check.program (lines.map Text.collapse) {}).result := by
  have built := Outline.ofLines_agrees lines
  rw [result_program, result_program]
  generalize Outline.ofLines (lines.map Text.collapse) = other at built
  cases cutAt : Outline.ofLines lines with
  | error fault =>
    rw [cutAt] at built
    cases built with
    | fault => exact .fault
    | unsound broken => exact absurd trivial broken
  | ok outline =>
    rw [cutAt] at built
    cases built with
    | ok _ same =>
      subst same
      obtain ⟨cut, isCut, rfl⟩ := OutlineSegments.ofLines_eq_ok_iff_cut.mp cutAt
      have named : ∀ method ∈ (MethodTable.ofMethods (methodsOf cut)).methods, method.IsNamed := by
        intro method member
        rw [MethodTable.methods_ofMethods] at member
        exact isNamed_of_mem isCut member
      have checked := CollapsedBodies.outline_agrees ⟨globalsOf cut, _⟩ named {} {} alike_empty
      exact (checked.result fun _ _ _ _ _ => trivial).congr (isWhole_iff_of_cut isCut)

/-- What is left of a text is what was not skipped, collapsed, where nothing was refused. -/
theorem lines_of_isClean {content : Text} (clean : (Source.ofText content).isClean = true) :
    (Source.ofText content).lines = (Source.rawLines content).map Text.collapse := by
  have kept := AcceptedProgram.kept_of_isClean clean
  rw [Source.ofText, Source.rawLines]
  dsimp only
  generalize content.lines = raw at kept
  induction raw with
  | nil => rfl
  | cons line raw ih =>
    have rest := ih fun other member => kept other (List.mem_cons_of_mem line member)
    rw [List.map_cons, List.filterMap_cons, List.filter_cons]
    cases read : RawLine.ofText line with
    | refused why => exact absurd read (kept line List.mem_cons_self why)
    | skipped => exact rest
    | kept t =>
      rw [(RawLine.ofText_eq_kept_iff.mp read).1]
      exact congrArg _ rest

theorem exists_of_source_iff {source : Source} (clean : source.isClean = true) :
    (∃ verdict, (Check.source source).result = .ok verdict) ↔
      ∃ verdict, (Check.program source.lines {}).result = .ok verdict := by
  rw [Check.source, if_pos clean]
  rcases Check.program source.lines {} with ⟨_ | verdict, after, events⟩
  · constructor <;> rintro ⟨_, same⟩ <;> cases same
  · exact ⟨fun _ => ⟨_, rfl⟩, fun _ => ⟨_, rfl⟩⟩

/-- Where no line of a text is refused, what is left of it is accepted as it stands exactly where
it is accepted collapsed and no value is given that is stretched. -/
theorem raw_lines_accepted_iff {content : Text} (clean : (Source.ofText content).isClean = true) :
    (∃ verdict, (Check.program (Source.rawLines content) {}).result = .ok verdict) ↔
      (∃ verdict, (Check.source (Source.ofText content)).result = .ok verdict) ∧
        ∀ line ∈ Source.rawLines content, ∀ t ∈ Check.values line, ¬ t.IsStretched := by
  rw [exists_of_source_iff clean, lines_of_isClean clean]
  exact (program_agrees (Source.rawLines content)).exists_iff

/-- A program with more blanks than it needs. A string may hold as many as it likes. -/
def spaced : Text :=
  "String  s =\t\"a  b\";\nvoid  f( char c ) \x7b\nf(  ' ' );\nreturn;\n \x7d".toList

theorem spaced_is_accepted_either_way :
    (Source.ofText spaced).isClean = true ∧
      (Check.program (Source.rawLines spaced) {}).result =
        .ok ⟨⟨[⟨"s".toList, .string, false, true, some "\"a  b\"".toList⟩], []⟩, 1⟩ ∧
      (∃ verdict, (Check.source (Source.ofText spaced)).result = .ok verdict) ∧
      ∀ line ∈ Source.rawLines spaced, ∀ t ∈ Check.values line, ¬ t.IsStretched := by
  have clean : (Source.ofText spaced).isClean = true := by decide +kernel
  have accepted : (Check.program (Source.rawLines spaced) {}).result =
      .ok ⟨⟨[⟨"s".toList, .string, false, true, some "\"a  b\"".toList⟩], []⟩, 1⟩ := by
    decide +kernel
  exact ⟨clean, accepted, (raw_lines_accepted_iff clean).mp ⟨_, accepted⟩⟩

def widened : Text :=
  "char c = '  ';".toList

theorem widened_is_accepted_collapsed :
    (Source.ofText widened).isClean = true ∧
      (Check.source (Source.ofText widened)).result =
        .ok ⟨⟨[⟨"c".toList, .char, false, true, some "' '".toList⟩], []⟩, 0⟩ ∧
      (Check.program (Source.rawLines widened) {}).result = .error (.invalidLiteral "'  '".toList .char) :=
  ⟨by decide +kernel, by decide +kernel, by decide +kernel⟩

end CollapsedProgram
end Linewise
