import Linewise.Check.File
import Linewise.Proofs.AcceptedBody
import Linewise.Proofs.GlobalScope
import Linewise.Proofs.OuterScopes
import Linewise.Proofs.OutlineSegments
import Linewise.Proofs.RawLines

/-! What a text is like that is accepted as a program. No line of it is refused, each is either
global or in a method, and each has been looked at where it stands: so names, calls and
assignments are in order all over the text. -/

namespace Linewise

/-- The global lines and the methods of a program are in order. A method may refer to what any
of the global lines declares, and a global line to what those before it do. -/
structure SoundProgram (globals : List Text) (methods : List Method) : Prop where
  kinds : ∀ line ∈ globals, Statement.ofLine line = some .declaration ∨ Statement.ofLine line = some .assignment
  names : ((globals.flatMap declaredIn).map (·.fragment.name)).Nodup
  assignments : ∀ before line after, globals = before ++ line :: after →
    ∀ fragment ∈ assignedIn line, Assignable (before.flatMap declaredIn) fragment.name
  methodNames : (methods.map Method.name).Nodup
  bodies : ∀ method ∈ methods, Visit.Sound ⟨method, .ofDeclared (globals.flatMap declaredIn)⟩ methods

namespace AcceptedProgram
open Segment Run OuterScopes

variable {lines globals : List Text} {methods : List Method} {cut : List Segment} {verdict : Verdict}

theorem kept_of_isClean {content : Text} (clean : (Source.ofText content).isClean = true) :
    ∀ line ∈ content.lines, ∀ why, RawLine.ofText line ≠ .refused why := by
  have none := List.countP_eq_zero.mp (beq_iff_eq.mp clean)
  intro line member why refused
  apply none (RawLine.ofText line) (List.mem_map_of_mem member)
  rw [refused]
  rfl

/-- What is left of a line has no blanks around it. -/
theorem trim_of_mem_source {content line : Text} (member : line ∈ (Source.ofText content).lines) :
    line.trim = line := by
  obtain ⟨raw, -, kept⟩ := Source.mem_lines_iff.mp member
  obtain ⟨rfl, -⟩ := RawLine.ofText_eq_kept_iff.mp kept
  exact Text.trim_collapse raw

theorem program_of_source {source : Source} (accepted : (Check.source source).result = .ok verdict) :
    source.isClean = true ∧ ∃ after, ending (Check.program source.lines) {} = (.ok verdict, after) := by
  unfold Check.source at accepted
  split at accepted
  · next clean =>
    unfold ending
    rcases checked : Check.program source.lines {} with ⟨_ | found, after, events⟩
    · rw [checked] at accepted
      cases accepted
    · rw [checked] at accepted
      cases accepted
      exact ⟨clean, after, rfl⟩
  · cases accepted

theorem outline_of_program {after : Scopes} (passed : ending (Check.program lines) {} = (.ok verdict, after)) :
    ∃ outline, Outline.ofLines lines = .ok outline ∧ ending (Check.outline outline) {} = (.ok verdict, after) := by
  obtain ⟨outline, middle, built, passed⟩ := ending_bind_eq_ok_iff.mp passed
  rw [ending_within, Prod.mk.injEq] at built
  obtain ⟨built, rfl⟩ := built
  exact ⟨outline, built, passed⟩

theorem mem_of_mem_globalsOf (isCut : IsCut lines cut) {line : Text} (member : line ∈ globalsOf cut) : line ∈ lines := by
  rw [← isCut.whole]
  exact List.mem_flatMap.mpr ⟨_, OutlineSegments.mem_globalsOf_iff.mp member, List.mem_singleton_self line⟩

theorem mem_of_mem_body (isCut : IsCut lines cut) {method : Method} {line : Text} (member : method ∈ methodsOf cut)
    (inBody : line ∈ method.body) : line ∈ lines := by
  obtain ⟨header, inCut, -⟩ := OutlineSegments.exists_of_mem_methodsOf isCut member
  rw [← isCut.whole]
  exact List.mem_flatMap.mpr ⟨_, inCut, List.mem_cons_of_mem header inBody⟩

/-- Where an outline is accepted, all that it holds is in order. -/
theorem sound_of_outline {after : Scopes} (distinct : (methods.map Method.name).Nodup)
    (trimmed : ∀ method ∈ methods, ∀ line ∈ method.body, line.trim = line)
    (passed : ending (Check.outline ⟨globals, .ofMethods methods⟩) {} = (.ok verdict, after)) :
    SoundProgram globals methods := by
  obtain ⟨left, declared, checked, _⟩ := ending_outline_eq_ok_iff.mp passed
  rw [MethodTable.methods_ofMethods] at checked
  have holds := GlobalScope.globals_hold declared
  refine ⟨?_, holds.distinct, ?_, distinct, ?_⟩
  · intro line member
    obtain ⟨before, rest, rfl⟩ := List.append_of_mem member
    obtain ⟨middle, next, _, here⟩ := GlobalScope.exists_of_globals declared
    exact (GlobalScope.exists_of_globalLine here).1
  · intro before line rest whole
    subst whole
    obtain ⟨middle, next, held, here⟩ := GlobalScope.exists_of_globals declared
    exact (GlobalScope.line_holds held here).2
  · intro method member
    obtain ⟨scopes, last, above, ended⟩ := exists_of_eachMethod checked member
    have compares := holds.compares.trans (above.grows.compares above.depth)
    exact Visit.sound_of_method ⟨method, scopes⟩ compares (trimmed method member) ended

/-- A text that is accepted has no line that is refused. What is left of its lines is cut into
global lines and methods, and these are in order. -/
theorem accepted_text_is_sound {content : Text} {verdict : Verdict}
    (accepted : (Check.source (Source.ofText content)).result = .ok verdict) :
    (∀ line ∈ content.lines, ∀ why, RawLine.ofText line ≠ .refused why) ∧
      ∃ cut, IsCut (Source.ofText content).lines cut ∧ SoundProgram (globalsOf cut) (methodsOf cut) := by
  obtain ⟨clean, after, passed⟩ := program_of_source accepted
  obtain ⟨outline, built, passed⟩ := outline_of_program passed
  obtain ⟨cut, isCut, rfl⟩ := OutlineSegments.ofLines_eq_ok_iff_cut.mp built
  refine ⟨kept_of_isClean clean, cut, isCut, sound_of_outline isCut.distinct ?_ passed⟩
  intro method member line inBody
  exact trim_of_mem_source (mem_of_mem_body isCut member inBody)

def recursive : Text :=
  "int a, b = 1;\na = b;\nvoid f(int c) \x7b\nif (true) \x7b\nint b = c;\na = b;\n\x7d\nf(a);\nreturn;\n\x7d\n".toList

theorem recursive_is_sound :
    (Check.source (Source.ofText recursive)).result = .ok
        ⟨⟨[⟨"b".toList, .int, false, true, some "1".toList⟩, ⟨"a".toList, .int, false, true, none⟩], []⟩, 1⟩ ∧
      (∀ line ∈ recursive.lines, ∀ why, RawLine.ofText line ≠ .refused why) ∧
      ∃ cut, IsCut (Source.ofText recursive).lines cut ∧ SoundProgram (globalsOf cut) (methodsOf cut) := by
  have accepted : (Check.source (Source.ofText recursive)).result = .ok
      ⟨⟨[⟨"b".toList, .int, false, true, some "1".toList⟩, ⟨"a".toList, .int, false, true, none⟩], []⟩, 1⟩ := by
    decide +kernel
  exact ⟨accepted, accepted_text_is_sound accepted⟩

end AcceptedProgram
end Linewise
