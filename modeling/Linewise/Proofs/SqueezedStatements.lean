import Linewise.Method
import Linewise.Proofs.SqueezedCuts
import Linewise.Proofs.GivenValues

/-! A squeezed line is the same statement. What is read out of it is what is read out of the line,
squeezed, and names and types are the same altogether. Headers make the same parameters. -/

namespace Linewise
open Text

theorem isIdentifier_squeeze (t : Text) : isIdentifier t.squeeze = isIdentifier t := by
  apply squeeze_congr
  exact fun t named c member => isBlank_of_isWordChar (isWordChar_of_isIdentifier named c member)

/-- A name is not changed by squeezing it. -/
theorem squeeze_of_isIdentifier {t : Text} (named : isIdentifier t = true) : t.squeeze = t :=
  squeeze_of_ink fun c member => isBlank_of_isWordChar (isWordChar_of_isIdentifier named c member)

namespace Text

theorem ink_return : ∀ c ∈ Keyword.ret ++ [';'], isBlank c = false := by
  have semicolon : isBlank ';' = false := rfl
  exact List.forall_mem_append.mpr ⟨ink_of_isRawName rfl, ink_singleton semicolon⟩

theorem afterFinal?_squeeze (t : Text) :
    t.squeeze.afterWord? Keyword.final = (t.afterWord? Keyword.final).map squeeze :=
  afterWord?_squeeze (ink_of_isRawName VariableLine.isRawName_final) t

end Text

namespace Statement

def squeeze : Statement → Statement
  | methodHead name parameters => methodHead name parameters.squeeze
  | call callee arguments => call callee arguments.squeeze
  | blockHead condition => blockHead condition.squeeze
  | declaration => declaration
  | assignment => assignment
  | blockEnd => blockEnd
  | ret => ret

variable (t : Text)

theorem afterType?_squeeze : afterType? t.squeeze = (afterType? t).map (Prod.map id Text.squeeze) := by
  rw [afterType?, afterType?, rawName?_squeeze]
  cases t.rawName? with
  | none => rfl
  | some pair =>
    obtain ⟨word, rest⟩ := pair
    cases spelled : Ty.ofKeyword? word with
    | none => simp [spelled]
    | some ty => cases spaced : rest.afterBlanks? <;> simp [spelled, afterBlanks?_squeeze, spaced]

theorem typed?_squeeze :
    typed? t.squeeze = (typed? t).map fun (isFinal, ty, rest) => (isFinal, ty, rest.squeeze) := by
  rw [typed?, typed?, afterFinal?_squeeze, afterType?_squeeze]
  cases t.afterWord? Keyword.final with
  | none => cases afterType? t <;> rfl
  | some rest =>
    dsimp only [Option.map_some]
    rw [afterBlanks?_squeeze]
    cases rest.afterBlanks? with
    | none => rfl
    | some rest =>
      dsimp only [Option.map_some, Option.bind_some]
      rw [afterType?_squeeze]
      cases afterType? rest <;> rfl

theorem ownName?_squeeze : ownName? t.squeeze = (ownName? t).map (Prod.map id Text.squeeze) := by
  rw [ownName?, ownName?, rawName?_squeeze]
  cases t.rawName? with
  | none => rfl
  | some pair => cases reserved : isReserved pair.1 <;> simp [reserved]

theorem isParenthesis_blank (c : Char) (blank : isBlank c = true) : isParenthesis c = false := by
  have none : blanks.all (fun c => !isParenthesis c) = true := by decide
  simpa using List.all_eq_true.mp none c (isBlank_iff.mp blank)

theorem methodHead?_squeeze : methodHead? t.squeeze = (methodHead? t).map (Prod.map id Text.squeeze) := by
  have void : ∀ c ∈ Keyword.void, isBlank c = false := ink_of_isRawName rfl
  have brace : isBlank '{' = false := rfl
  rw [methodHead?, methodHead?, trim_squeeze, afterWord?_squeeze void]
  cases t.trim.afterWord? Keyword.void with
  | none => rfl
  | some rest =>
    simp only [Option.map_some, Option.bind_eq_bind, Option.bind_some, afterBlanks?_squeeze]
    cases rest.afterBlanks? with
    | none => rfl
    | some rest =>
      simp only [Option.map_some, Option.bind_some, rawName?_squeeze]
      cases rest.rawName? with
      | none => rfl
      | some pair =>
        simp only [Option.map_some, Option.bind_some, Prod.map_fst, Prod.map_snd, bracketed?_squeeze brace]
        cases pair.2.bracketed? '{' with
        | none => rfl
        | some parameters =>
          simp only [Option.map_some, Option.bind_some, any_squeeze isParenthesis_blank]
          split <;> rfl

theorem methodHead?_trim : methodHead? t.trim = methodHead? t := by
  rw [methodHead?, methodHead?, trim_trim]

theorem call?_squeeze : call? t.squeeze = (call? t).map (Prod.map id Text.squeeze) := by
  have semicolon : isBlank ';' = false := rfl
  rw [call?, call?, trim_squeeze, ownName?_squeeze]
  cases ownName? t.trim with
  | none => rfl
  | some pair =>
    simp only [Option.map_some, Option.bind_eq_bind, Option.bind_some, Prod.map_snd, bracketed?_squeeze semicolon]
    cases pair.2.bracketed? ';' with
    | none => rfl
    | some arguments => simp [trim_squeeze]

theorem blockHead?_squeeze : blockHead? t.squeeze = (blockHead? t).map Text.squeeze := by
  have branch : ∀ c ∈ Keyword.branch, isBlank c = false := ink_of_isRawName rfl
  have loop : ∀ c ∈ Keyword.loop, isBlank c = false := ink_of_isRawName rfl
  have brace : isBlank '{' = false := rfl
  rw [blockHead?, blockHead?, trim_squeeze, afterWord?_squeeze branch, afterWord?_squeeze loop]
  have joined : ((t.trim.afterWord? Keyword.branch).map Text.squeeze).or ((t.trim.afterWord? Keyword.loop).map Text.squeeze) =
      ((t.trim.afterWord? Keyword.branch).or (t.trim.afterWord? Keyword.loop)).map Text.squeeze := by
    cases t.trim.afterWord? Keyword.branch <;> rfl
  rw [joined]
  cases (t.trim.afterWord? Keyword.branch).or (t.trim.afterWord? Keyword.loop) with
  | none => rfl
  | some rest =>
    simp only [Option.map_some, Option.bind_eq_bind, Option.bind_some, bracketed?_squeeze brace]
    cases rest.bracketed? '{' with
    | none => rfl
    | some condition => simp [trim_squeeze]

theorem hasBody_squeeze : hasBody t.squeeze = hasBody t := by
  have semicolon : isBlank ';' = false := rfl
  rw [hasBody, hasBody, beforeLast?_squeeze semicolon]
  cases t.beforeLast? ';' with
  | none => rfl
  | some body =>
    dsimp only [Option.map_some]
    rw [trim_squeeze, isEmpty_squeeze]

theorem isDeclaration_squeeze : isDeclaration t.squeeze = isDeclaration t := by
  rw [isDeclaration, isDeclaration, typed?_squeeze]
  cases typed? t with
  | none => rfl
  | some typed => exact hasBody_squeeze _

private theorem head?_squeeze_bne (t : Text) : (t.squeeze.head? != some '=') = (t.head? != some '=') := by
  cases t with
  | nil => rfl
  | cons c t =>
    cases blank : isBlank c with
    | false => rw [squeeze_ink blank]; rfl
    | true =>
      have apart : c ≠ '=' := by
        rintro rfl
        cases blank
      have unlike : (some c != some '=') = true := by simpa using apart
      rw [squeeze_blank blank, List.head?_cons, List.head?_cons, unlike]
      rfl

theorem isAssignment_squeeze : isAssignment t.squeeze = isAssignment t := by
  rw [isAssignment, isAssignment, ownName?_squeeze]
  cases ownName? t with
  | none => rfl
  | some pair =>
    dsimp only [Option.map_some, Prod.map_snd]
    rw [trimLeft_squeeze]
    cases behind : pair.2.trimLeft with
    | nil => rfl
    | cons c value =>
      have ink : isBlank c = false := by
        apply isBlank_of_head?_trimLeft (t := pair.2)
        rw [behind]
        rfl
      rw [squeeze_ink ink]
      by_cases equals : c = '='
      · subst equals
        exact congrArg₂ and (head?_squeeze_bne value) (hasBody_squeeze value)
      · split
        · next same => exact absurd (List.cons.inj same).1 equals
        · split
          · next same => exact absurd (List.cons.inj same).1 equals
          · rfl

theorem read?_squeeze (kind : Kind) : kind.read? t.squeeze = (kind.read? t).map squeeze := by
  have brace : isBlank '}' = false := rfl
  cases kind with
  | methodHead =>
    rw [Kind.read?, Kind.read?, methodHead?_squeeze]
    cases methodHead? t <;> rfl
  | declaration =>
    rw [Kind.read?, Kind.read?, isDeclaration_squeeze]
    split <;> rfl
  | assignment =>
    rw [Kind.read?, Kind.read?, isAssignment_squeeze]
    split <;> rfl
  | call =>
    rw [Kind.read?, Kind.read?, call?_squeeze]
    cases call? t <;> rfl
  | blockHead =>
    rw [Kind.read?, Kind.read?, blockHead?_squeeze]
    cases blockHead? t <;> rfl
  | blockEnd =>
    simp only [Kind.read?, squeeze_eq_iff (ink_singleton brace)]
    split <;> rfl
  | ret =>
    simp only [Kind.read?, squeeze_eq_iff ink_return]
    split <;> rfl

theorem ofTrimmed_squeeze : ofTrimmed t.squeeze = (ofTrimmed t).map squeeze := by
  rw [ofTrimmed_eq, ofTrimmed_eq, List.map_findSome?]
  exact congrArg Kind.all.findSome? (funext (read?_squeeze t))

theorem ofLine_squeeze : ofLine t.squeeze = (ofLine t).map squeeze := by
  rw [ofLine, trim_squeeze, ofTrimmed_squeeze, ofLine]

theorem ofLine_collapse : ofLine t.collapse = (ofLine t).map squeeze := by
  rw [collapse, ofLine_squeeze, ofLine_trim]

end Statement

def Fragment.squeeze (fragment : Fragment) : Fragment :=
  ⟨fragment.name.squeeze, fragment.value?.map Text.squeeze⟩

theorem Fragment.ofText_squeeze (t : Text) : ofText t.squeeze = (ofText t).squeeze := by
  have passes (c : Char) (blank : isBlank c = true) : (c != '=') = true := by
    rw [bne_iff_ne]
    rintro rfl
    cases blank
  rw [ofText, ofText, dropWhile_squeeze_of_passes passes]
  cases behind : t.dropWhile (· != '=') with
  | nil => simp [squeeze, trim_squeeze, Text.squeeze]
  | cons sign value =>
    obtain ⟨rfl, -⟩ := eq_append_of_dropWhile behind
    rw [squeeze_ink rfl]
    simp [squeeze, takeWhile_squeeze_of_passes passes, trim_squeeze]

namespace VariableLine

def squeeze : VariableLine → VariableLine
  | declaration isFinal ty fragments => declaration isFinal ty (fragments.map Fragment.squeeze)
  | assignment fragments => assignment (fragments.map Fragment.squeeze)

variable (t : Text)

theorem afterSpaced?_squeeze {word : Text} (ink : ∀ c ∈ word, isBlank c = false) :
    afterSpaced? t.squeeze word = (afterSpaced? t word).map Text.squeeze := by
  rw [afterSpaced?, afterSpaced?, after?_squeeze ink]
  cases t.after? word with
  | none => rfl
  | some rest => exact afterBlanks?_squeeze rest

theorem firstWord_squeeze : firstWord t.squeeze = firstWord t := by
  rw [firstWord, trimLeft_squeeze]
  apply takeWhile_squeeze_of_stops
  intro c blank
  rw [blank]
  rfl

theorem fragmentsOf_squeeze : fragmentsOf t.squeeze = (fragmentsOf t).map Fragment.squeeze := by
  have semicolon : isBlank ';' = false := rfl
  have comma : isBlank ',' = false := rfl
  have ended : withoutEnd t.squeeze = (withoutEnd t).squeeze := by
    rw [withoutEnd, withoutEnd, beforeLast?_squeeze semicolon]
    cases t.beforeLast? ';' <;> rfl
  rw [fragmentsOf, fragmentsOf, ended, splitOutside_squeeze comma, List.map_map, List.map_map]
  apply List.map_congr_left
  exact fun piece _ => Fragment.ofText_squeeze piece

theorem ofLine?_squeeze : ofLine? t.squeeze = (ofLine? t).map squeeze := by
  have final := ink_of_isRawName isRawName_final
  have getD (t word : Text) : ((afterSpaced? t word).map Text.squeeze).getD t.squeeze =
      ((afterSpaced? t word).getD t).squeeze := by
    cases afterSpaced? t word <;> rfl
  dsimp only [ofLine?]
  rw [trim_squeeze, afterSpaced?_squeeze _ final, getD, firstWord_squeeze, Option.isSome_map]
  cases Ty.ofKeyword? (firstWord ((afterSpaced? t.trim Keyword.final).getD t.trim)) with
  | some ty =>
    dsimp only
    rw [afterSpaced?_squeeze _ (ink_of_isRawName (isRawName_keyword ty)), getD, fragmentsOf_squeeze]
    rfl
  | none =>
    dsimp only
    split
    · rfl
    · rw [fragmentsOf_squeeze]
      rfl

theorem ofLine?_collapse : ofLine? t.collapse = (ofLine? t).map squeeze := by
  rw [collapse, ofLine?_squeeze]
  simp [ofLine?]

end VariableLine

/-- A parameter is made of words only. -/
theorem Parameter.ofText?_squeeze (t : Text) : ofText? t.squeeze = ofText? t := by
  rw [ofText?, ofText?, trim_squeeze, Statement.typed?_squeeze]
  cases Statement.typed? t.trim with
  | none => rfl
  | some typed =>
    obtain ⟨isFinal, ty, name⟩ := typed
    simp only [Option.map_some, Option.bind_eq_bind, Option.bind_some, isIdentifier_squeeze]
    split
    · next named => rw [squeeze_of_isIdentifier named]
    · rfl

namespace Method

def collapse (method : Method) : Method :=
  { method with body := method.body.map Text.collapse }

theorem toOption_readParameters_squeeze (method : Text) (items : List Text) :
    (readParameters method (items.map Text.squeeze)).toOption = (readParameters method items).toOption := by
  induction items with
  | nil => rfl
  | cons item items ih =>
    rw [List.map_cons, readParameters, readParameters, Parameter.ofText?_squeeze]
    cases Parameter.ofText? item with
    | none => rfl
    | some parameter =>
      cases here : readParameters method items <;> cases there : readParameters method (items.map Text.squeeze) <;>
        simp_all [Except.toOption]

theorem toOption_parametersOf_squeeze (method t : Text) :
    (parametersOf method t.squeeze).toOption = (parametersOf method t).toOption := by
  have comma : isBlank ',' = false := rfl
  rw [parametersOf, parametersOf, trim_squeeze, isEmpty_squeeze, splitOn_squeeze comma]
  split
  · rfl
  · exact toOption_readParameters_squeeze method (t.splitOn ',')

/-- A header makes the same method when it is collapsed, around the same body. -/
theorem toOption_ofHeader_collapse (header : Text) (body : List Text) :
    (ofHeader header.collapse (body.map Text.collapse)).toOption = (ofHeader header body).toOption.map collapse := by
  have read : Statement.methodHead? header.collapse = (Statement.methodHead? header).map (Prod.map id Text.squeeze) := by
    rw [Text.collapse, Statement.methodHead?_squeeze, Statement.methodHead?_trim]
  rw [ofHeader, ofHeader, read]
  cases Statement.methodHead? header with
  | none => rfl
  | some head =>
    obtain ⟨name, parameters⟩ := head
    have same := toOption_parametersOf_squeeze name parameters
    simp only [Option.map_some, Prod.map_apply, id_eq]
    split
    · cases here : parametersOf name parameters <;> cases there : parametersOf name parameters.squeeze <;>
        simp_all [Except.toOption, collapse]
    · rfl

end Method
end Linewise
