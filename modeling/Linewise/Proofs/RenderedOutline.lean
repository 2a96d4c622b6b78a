import Linewise.Proofs.CollapsedProgram
import Linewise.Proofs.SpelledHeaders

/-! An outline can be written out again: its global lines first, and then its methods with headers
that are spelled in one way. These lines have the same outline, so it does not matter to a program
how its headers are spaced and where its global lines stand. -/

namespace Linewise
open Text

def Parameter.render (parameter : Parameter) : Text :=
  Statement.front parameter.isFinal parameter.ty ++ parameter.name

namespace Method

def renderParameters (parameters : List Parameter) : Text :=
  [',', ' '].intercalate (parameters.map Parameter.render)

def header (method : Method) : Text :=
  Keyword.void ++ ' ' :: (method.name ++ '(' :: renderParameters method.parameters ++ [')', ' ', '\x7b'])

def render (method : Method) : List Text :=
  method.header :: method.body

end Method

def Outline.render (outline : Outline) : List Text :=
  outline.globals ++ outline.methods.methods.flatMap Method.render

/-- A parameter is written like this, also behind blanks. -/
theorem Parameter.spelled_render {parameter : Parameter} {before : Text} (first : ∀ c ∈ before, isBlank c = true)
    (named : isIdentifier parameter.name = true) : parameter.Spelled (before ++ parameter.render) := by
  rw [← List.append_nil (before ++ parameter.render)]
  exact .intro first (Statement.isFront_front _ _) named (List.forall_mem_nil _)

namespace Method

variable {method : Method} {parameters : List Parameter}

private theorem renderParameters_cons (parameter : Parameter) (parameters : List Parameter) :
    renderParameters (parameter :: parameters) =
      [','].intercalate (parameter.render :: parameters.map fun other => [' '] ++ other.render) := by
  unfold renderParameters
  induction parameters generalizing parameter with
  | nil => rfl
  | cons next parameters ih =>
    rw [List.map_cons, List.map_cons, List.intercalate_cons_cons, ← List.map_cons, ih, List.map_cons,
      List.intercalate_cons_cons]
    cases parameters <;> simp [List.intercalate_cons_cons]

theorem spelledParameters_renderParameters (named : ∀ parameter ∈ parameters, isIdentifier parameter.name = true) :
    SpelledParameters parameters (renderParameters parameters) := by
  cases parameters with
  | nil => exact .none (List.forall_mem_nil _)
  | cons parameter parameters =>
    obtain ⟨here, later⟩ := List.forall_mem_cons.mp named
    rw [renderParameters_cons]
    refine .row (List.cons_ne_nil _ _) (.cons (Parameter.spelled_render (List.forall_mem_nil _) here) ?_)
    rw [List.forall₂_map_right_iff, List.forall₂_same]
    exact fun other member => Parameter.spelled_render isGap_space.blank (later other member)

/-- A method with a proper name and properly named parameters has a header. -/
theorem spelledHeader_header (proper : isMethodName method.name = true)
    (named : ∀ parameter ∈ method.parameters, isIdentifier parameter.name = true) :
    SpelledHeader method.name method.parameters method.header := by
  have spelled := SpelledHeader.intro isGap_space proper (List.forall_mem_nil _)
    (spelledParameters_renderParameters named) isGap_space.blank
  have whole : method.header = Keyword.void ++ [' '] ++ method.name ++
      ([] ++ '(' :: renderParameters method.parameters ++ ')' :: [' '] ++ ['\x7b']) := by
    simp [header]
  rwa [whole]

/-- A method is made again of its header and its body. -/
theorem ofHeader_header (proper : isMethodName method.name = true)
    (named : ∀ parameter ∈ method.parameters, isIdentifier parameter.name = true) :
    ofHeader method.header method.body = .ok method := by
  have spelled := spelledHeader_header proper named
  rw [ofHeader_iff_spelled, spelled.trim]
  exact ⟨spelled, rfl⟩

end Method

namespace RenderedOutline
open Segment Run

variable {lines : List Text} {cut : List Segment} {outline : Outline}

private def cutOf (globals : List Text) (methods : List Method) : List Segment :=
  globals.map .global ++ methods.map fun method => .method method.header method.body

private theorem linesOf_cutOf (globals : List Text) (methods : List Method) :
    linesOf (cutOf globals methods) = globals ++ methods.flatMap Method.render := by
  rw [linesOf, cutOf, List.flatMap_append, List.flatMap_map, List.flatMap_map]
  exact congrArg (· ++ _) (List.flatMap_singleton' globals)

private theorem globalsOf_cutOf (globals : List Text) (methods : List Method) :
    globalsOf (cutOf globals methods) = globals := by
  have none : methods.filterMap (global? ∘ fun method => .method method.header method.body) = [] :=
    List.filterMap_eq_nil_iff.mpr fun _ _ => rfl
  rw [globalsOf, cutOf, List.filterMap_append, List.filterMap_map, List.filterMap_map, none, List.append_nil]
  exact List.filterMap_some

private theorem methodsOf_cutOf (globals : List Text) {methods : List Method}
    (made : ∀ method ∈ methods, Method.ofHeader method.header method.body = .ok method) :
    methodsOf (cutOf globals methods) = methods := by
  have none : globals.filterMap (Segment.method? ∘ .global) = [] := List.filterMap_eq_nil_iff.mpr fun _ _ => rfl
  have each : methods.filterMap (Segment.method? ∘ fun method => .method method.header method.body) =
      methods.filterMap some :=
    List.filterMap_congr fun method member => method?_of_made (made method member)
  rw [methodsOf, cutOf, List.filterMap_append, List.filterMap_map, List.filterMap_map, none, each, List.nil_append]
  exact List.filterMap_some

private theorem isMethod_of_mem (isCut : IsCut lines cut) {method : Method} (member : method ∈ methodsOf cut) :
    ClosesFrom 1 method.body ∧ isMethodName method.name = true ∧ method.IsNamed := by
  obtain ⟨_, _, closes, makes⟩ := OutlineSegments.exists_of_mem_methodsOf isCut member
  exact ⟨closes, (Method.ofHeader_eq_ok_iff.mp makes).2.1, Method.isNamed_of_ofHeader makes⟩

private theorem ofHeader_header_of_mem (isCut : IsCut lines cut) :
    ∀ method ∈ methodsOf cut, Method.ofHeader method.header method.body = .ok method := by
  intro method member
  obtain ⟨-, proper, named⟩ := isMethod_of_mem isCut member
  exact Method.ofHeader_header proper named

private theorem isCut_cutOf (isCut : IsCut lines cut) :
    IsCut (globalsOf cut ++ (methodsOf cut).flatMap Method.render) (cutOf (globalsOf cut) (methodsOf cut)) := by
  have made := ofHeader_header_of_mem isCut
  refine ⟨linesOf_cutOf _ _, ?_, ?_⟩
  · intro segment member
    rcases List.mem_append.mp member with listed | listed
    · obtain ⟨line, there, rfl⟩ := List.mem_map.mp listed
      exact isCut.valid _ (OutlineSegments.mem_globalsOf_iff.mp there)
    · obtain ⟨method, there, rfl⟩ := List.mem_map.mp listed
      obtain ⟨-, -, t, head, -⟩ := Method.ofHeader_eq_ok_iff.mp (made method there)
      exact .method (Statement.ofLine_of_methodHead? head) (isMethod_of_mem isCut there).1 (made method there)
  · rw [methodsOf_cutOf _ made]
    exact isCut.distinct

/-- A program is checked by its outline, whatever lines that was made of. -/
theorem ending_program_congr {others : List Text} (same : Outline.ofLines others = Outline.ofLines lines) :
    ending (Check.program others) {} = ending (Check.program lines) {} := by
  have built (all : List Text) : (ending (Outline.build all) {}).1 = Outline.ofLines all := rfl
  rw [Check.program, Check.program, ending_bind, ending_bind, ending_within, ending_within, built, built, same]

/-- What is written out of an outline has that outline again. So the program that is written out is
checked as the program is that the outline was made of. -/
theorem ofLines_render (built : Outline.ofLines lines = .ok outline) :
    Outline.ofLines outline.render = .ok outline ∧
      ending (Check.program outline.render) {} = ending (Check.program lines) {} := by
  obtain ⟨cut, isCut, whole⟩ := OutlineSegments.ofLines_eq_ok_iff_cut.mp built
  have made := ofHeader_header_of_mem isCut
  have again : Outline.ofLines outline.render = .ok outline := by
    refine OutlineSegments.ofLines_eq_ok_iff_cut.mpr ⟨cutOf (globalsOf cut) (methodsOf cut), ?_, ?_⟩
    · rw [whole, Outline.render, MethodTable.methods_ofMethods]
      exact isCut_cutOf isCut
    · rw [globalsOf_cutOf, methodsOf_cutOf _ made]
      exact whole
  exact ⟨again, ending_program_congr (again.trans built.symm)⟩

/-- A program with its headers spaced in some other way, and a global line between its methods. -/
def scattered : List Text :=
  ["void  f(final int  a,String s )\x7b".toList, " f(1, s);".toList, "return;".toList, "\x7d".toList,
    "int x = 1;".toList, "void g ( ) \x7b".toList, "\x7d".toList]

def gathered : Outline where
  globals := ["int x = 1;".toList]
  methods := .ofMethods [
    ⟨"f".toList, [⟨"a".toList, .int, true⟩, ⟨"s".toList, .string, false⟩],
      [" f(1, s);".toList, "return;".toList, "\x7d".toList]⟩,
    ⟨"g".toList, [], ["\x7d".toList]⟩]

theorem scattered_is_gathered :
    Outline.ofLines scattered = .ok gathered ∧
      gathered.render = ["int x = 1;".toList, "void f(final int a, String s) \x7b".toList, " f(1, s);".toList,
        "return;".toList, "\x7d".toList, "void g() \x7b".toList, "\x7d".toList] ∧
      Outline.ofLines gathered.render = .ok gathered ∧
      ending (Check.program gathered.render) {} = ending (Check.program scattered) {} := by
  have built : Outline.ofLines scattered = .ok gathered := by decide +kernel
  exact ⟨built, by decide, ofLines_render built⟩

end RenderedOutline
end Linewise
