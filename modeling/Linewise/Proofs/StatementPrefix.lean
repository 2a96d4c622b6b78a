import Linewise.Proofs.StatementReaders
import Linewise.Proofs.TextTrim
import Linewise.VariableLine

/-! The front of a line is read twice: once to tell what statement the line is, and once to
take its fragments out. The first reading ends a word where word characters end, the second
where a blank stands. Both come to the same type and the same fragments. -/

namespace Linewise
open Text

namespace VariableLine

theorem isRawName_final : isRawName Keyword.final = true := by
  decide

theorem isRawName_keyword (ty : Ty) : isRawName ty.keyword = true := by
  cases ty <;> decide

theorem afterSpaced?_eq_some_iff {t word rest : Text} :
    afterSpaced? t word = some rest ↔ ∃ more, t = word ++ more ∧ more.afterBlanks? = some rest := by
  unfold afterSpaced?
  cases found : t.after? word with
  | none =>
    constructor
    · intro spaced
      cases spaced
    · intro ⟨more, whole, _⟩
      rw [after?_eq_some_iff.mpr whole] at found
      cases found
  | some more =>
    rw [after?_eq_some_iff] at found
    constructor
    · intro spaced
      exact ⟨more, found, spaced⟩
    · intro ⟨other, whole, spaced⟩
      rw [found] at whole
      rwa [List.append_cancel_left whole]

/-- A word of word characters is the first one wherever blanks follow it. -/
theorem firstWord_append {word rest more : Text} (raw : isRawName word = true)
    (spaced : rest.afterBlanks? = some more) : firstWord (word ++ rest) = word := by
  obtain ⟨c, rest, rfl, blank, -⟩ := afterBlanks?_eq_some_iff.mp spaced
  have all := all_of_isRawName raw
  have start : (word ++ c :: rest).trimLeft = word ++ c :: rest := by
    apply trimLeft_eq_self
    intro d head
    cases word with
    | nil => cases raw
    | cons e word =>
      cases head
      exact isBlank_of_isWordChar (all d (by simp))
  have unblank : ∀ d ∈ word, (!isBlank d) = true := by
    intro d member
    simp [isBlank_of_isWordChar (all d member)]
  rw [firstWord, start, List.takeWhile_append_of_pos unblank]
  simp [blank]

theorem fragmentsOf_append (body : Text) :
    fragmentsOf (body ++ [';']) = (body.splitOutside ',').map Fragment.ofText := by
  rw [fragmentsOf, withoutEnd, beforeLast?_eq_some_iff.mpr rfl]
  rfl

end VariableLine

namespace Statement
open VariableLine

theorem afterType?_eq_some_iff {t rest : Text} {ty : Ty} :
    afterType? t = some (ty, rest) ↔ ∃ more, t = ty.keyword ++ more ∧ more.afterBlanks? = some rest := by
  unfold afterType?
  constructor
  · intro found
    cases named : t.rawName? with
    | none => simp [named] at found
    | some pair =>
      obtain ⟨word, more⟩ := pair
      cases spelled : Ty.ofKeyword? word with
      | none => simp [named, spelled] at found
      | some other =>
        cases spaced : more.afterBlanks? with
        | none => simp [named, spelled, spaced] at found
        | some left =>
          obtain ⟨rfl, rfl⟩ : other = ty ∧ left = rest := by simpa [named, spelled, spaced] using found
          obtain ⟨whole, -, -⟩ := rawName?_eq_some_iff.mp named
          exact ⟨more, Ty.ofKeyword?_eq_some_iff.mp spelled ▸ whole, spaced⟩
  · intro ⟨more, whole, spaced⟩
    have named : t.rawName? = some (ty.keyword, more) :=
      rawName?_eq_some_iff.mpr ⟨whole, isRawName_keyword ty, startsWord_of_afterBlanks? spaced⟩
    simp [named, Ty.ofKeyword?_eq_some_iff.mpr rfl, spaced]

/-- The two ways in which a line can be typed. -/
theorem typed?_cases {t rest : Text} {isFinal : Bool} {ty : Ty}
    (typed : typed? t = some (isFinal, ty, rest)) :
    (isFinal = false ∧ t.afterWord? Keyword.final = none ∧ afterType? t = some (ty, rest)) ∨
      (isFinal = true ∧ ∃ after middle, t.afterWord? Keyword.final = some after ∧
        after.afterBlanks? = some middle ∧ afterType? middle = some (ty, rest)) := by
  unfold typed? at typed
  split at typed
  · next unfinal =>
    obtain ⟨pair, read, same⟩ := Option.map_eq_some_iff.mp typed
    cases same
    exact Or.inl ⟨rfl, unfinal, read⟩
  · next after final =>
    obtain ⟨pair, read, same⟩ := Option.map_eq_some_iff.mp typed
    cases same
    obtain ⟨middle, blanks, read⟩ := Option.bind_eq_some_iff.mp read
    exact Or.inr ⟨rfl, after, middle, final, blanks, read⟩

theorem spaced_of_afterType? {t rest : Text} {ty : Ty} (read : afterType? t = some (ty, rest)) :
    firstWord t = ty.keyword ∧ afterSpaced? t ty.keyword = some rest := by
  obtain ⟨more, whole, spaced⟩ := afterType?_eq_some_iff.mp read
  refine ⟨?_, afterSpaced?_eq_some_iff.mpr ⟨more, whole, spaced⟩⟩
  rw [whole]
  exact firstWord_append (isRawName_keyword ty) spaced

/-- Where blanks follow the word `final`, no longer word stands there. -/
theorem afterWord?_of_afterSpaced? {t word rest : Text} (found : afterSpaced? t word = some rest) :
    ∃ after, t.afterWord? word = some after ∧ after.afterBlanks? = some rest := by
  obtain ⟨after, whole, blanks⟩ := afterSpaced?_eq_some_iff.mp found
  exact ⟨after, afterWord?_eq_some_iff.mpr ⟨whole, startsWord_of_afterBlanks? blanks⟩, blanks⟩

/-- A declaration is read with the type and the finality that make it one. -/
theorem ofLine?_of_typed? {line rest : Text} {isFinal : Bool} {ty : Ty}
    (typed : typed? line.trim = some (isFinal, ty, rest)) :
    VariableLine.ofLine? line = some (.declaration isFinal ty (fragmentsOf rest)) := by
  have spelled : Ty.ofKeyword? ty.keyword = some ty := Ty.ofKeyword?_eq_some_iff.mpr rfl
  rcases typed?_cases typed with ⟨rfl, unfinal, read⟩ | ⟨rfl, after, middle, final, blanks, read⟩
  · obtain ⟨first, left⟩ := spaced_of_afterType? read
    have unspaced : afterSpaced? line.trim Keyword.final = none := by
      cases found : afterSpaced? line.trim Keyword.final with
      | none => rfl
      | some left =>
        obtain ⟨after, final, -⟩ := afterWord?_of_afterSpaced? found
        rw [unfinal] at final
        cases final
    simp [VariableLine.ofLine?, unspaced, first, spelled, left]
  · obtain ⟨first, left⟩ := spaced_of_afterType? read
    have spaced : afterSpaced? line.trim Keyword.final = some middle :=
      afterSpaced?_eq_some_iff.mpr ⟨after, (afterWord?_eq_some_iff.mp final).1, blanks⟩
    simp [VariableLine.ofLine?, spaced, first, spelled, left]

theorem ownName?_eq_some_iff {t name rest : Text} :
    ownName? t = some (name, rest) ↔ t.rawName? = some (name, rest) ∧ isReserved name = false := by
  unfold ownName?
  cases named : t.rawName? with
  | none => simp
  | some pair =>
    obtain ⟨word, more⟩ := pair
    cases reserved : isReserved word with
    | true =>
      simp only [Option.bind_eq_bind, Option.bind_some, reserved, if_true]
      constructor
      · intro found
        cases found
      · intro ⟨same, free⟩
        cases same
        rw [reserved] at free
        cases free
    | false =>
      simp only [Option.bind_eq_bind, Option.bind_some, reserved, Bool.false_eq_true, if_false]
      constructor
      · intro found
        cases found
        exact ⟨rfl, reserved⟩
      · intro ⟨same, _⟩
        exact same

theorem isReserved_keyword (ty : Ty) : isReserved ty.keyword = true := by
  cases ty <;> decide

/-- A line that starts with a name of the program's own is final in no reading of it, and has
no type in any. -/
theorem ofLine?_of_ownName? {line name rest : Text} (own : ownName? line.trim = some (name, rest)) :
    VariableLine.ofLine? line = some (.assignment (fragmentsOf line.trim)) := by
  obtain ⟨named, free⟩ := ownName?_eq_some_iff.mp own
  have unspaced : afterSpaced? line.trim Keyword.final = none := by
    cases found : afterSpaced? line.trim Keyword.final with
    | none => rfl
    | some left =>
      obtain ⟨after, whole, blanks⟩ := afterSpaced?_eq_some_iff.mp found
      rw [rawName?_eq_some_iff.mpr ⟨whole, isRawName_final, startsWord_of_afterBlanks? blanks⟩] at named
      cases named
      cases free
  have untyped : Ty.ofKeyword? (firstWord line.trim) = none := by
    cases found : Ty.ofKeyword? (firstWord line.trim) with
    | none => rfl
    | some ty =>
      have whole : line.trim = ty.keyword ++ line.trim.dropWhile fun c => !isBlank c := by
        rw [← Ty.ofKeyword?_eq_some_iff.mp found, firstWord, trimLeft_trim, List.takeWhile_append_dropWhile]
      have stops : startsWord (line.trim.dropWhile fun c => !isBlank c) = false := by
        rw [startsWord_eq_false_iff]
        intro c head
        have stopped := List.head?_dropWhile_not (fun c => !isBlank c) line.trim
        rw [head] at stopped
        exact isWordChar_of_isBlank (by simpa using stopped)
      rw [rawName?_eq_some_iff.mpr ⟨whole, isRawName_keyword ty, stops⟩] at named
      cases named
      rw [isReserved_keyword] at free
      cases free
  simp [VariableLine.ofLine?, unspaced, untyped]

@[simp] theorem ofLine_trim (line : Text) : ofLine line.trim = ofLine line := by
  simp [ofLine]

theorem ofLine_of_methodHead? {line name parameters : Text}
    (head : methodHead? line = some (name, parameters)) : ofLine line = some (.methodHead name parameters) := by
  have trimmed : methodHead? line.trim = some (name, parameters) := by
    rw [← head]
    simp [methodHead?]
  simp [ofLine, ofTrimmed, trimmed]

/-- A line that heads a method can be read as that again, blanks around it or not. -/
theorem methodHead?_of_ofLine {line name parameters : Text}
    (known : ofLine line = some (.methodHead name parameters)) : methodHead? line = some (name, parameters) := by
  have fits : methodHead? line.trim = some (name, parameters) := fits_of_ofLine known
  rwa [methodHead?, trim_trim] at fits

/-- What a declaration says in front of its fragments. -/
theorem typed?_of_isDeclaration {t : Text} (declares : isDeclaration t = true) :
    ∃ isFinal ty rest, typed? t = some (isFinal, ty, rest) := by
  unfold isDeclaration at declares
  split at declares
  · cases declares
  · next isFinal ty rest typed => exact ⟨isFinal, ty, rest, typed⟩

theorem ownName?_of_isAssignment {t : Text} (assigns : isAssignment t = true) :
    ∃ name rest, ownName? t = some (name, rest) ∧ rest.trimLeft.head? = some '=' := by
  unfold isAssignment at assigns
  split at assigns
  · cases assigns
  · next name rest own =>
    refine ⟨name, rest, own, ?_⟩
    split at assigns
    · next value sign =>
      rw [sign]
      rfl
    · cases assigns

theorem typed?_of_ofLine {line : Text} (known : ofLine line = some .declaration) :
    ∃ isFinal ty rest, typed? line.trim = some (isFinal, ty, rest) :=
  typed?_of_isDeclaration (fits_of_ofLine known)

theorem ownName?_of_ofLine {line : Text} (known : ofLine line = some .assignment) :
    ∃ name rest, ownName? line.trim = some (name, rest) := by
  obtain ⟨name, rest, own, -⟩ := ownName?_of_isAssignment (fits_of_ofLine known)
  exact ⟨name, rest, own⟩

theorem exists_of_hasBody {t : Text} (ended : hasBody t = true) : ∃ body, t = body ++ [';'] := by
  unfold hasBody at ended
  split at ended
  · cases ended
  · next body before => exact ⟨body, beforeLast?_eq_some_iff.mp before⟩

/-- A declaration has a semicolon at its end, and declares what stands between its commas. -/
theorem exists_of_declaration {line : Text} (known : ofLine line = some .declaration) :
    ∃ isFinal ty body, typed? line.trim = some (isFinal, ty, body ++ [';']) ∧
      VariableLine.ofLine? line = some (.declaration isFinal ty ((splitOutside ',' body).map Fragment.ofText)) := by
  obtain ⟨isFinal, ty, rest, typed⟩ := typed?_of_ofLine known
  have declares : isDeclaration line.trim = true := fits_of_ofLine known
  rw [isDeclaration, typed] at declares
  obtain ⟨body, rfl⟩ := exists_of_hasBody declares
  refine ⟨isFinal, ty, body, typed, ?_⟩
  rw [ofLine?_of_typed? typed, fragmentsOf_append]

/-- An assignment starts with a name of the program's own and ends in a semicolon, and assigns what
stands between its commas. -/
theorem exists_of_assignment {line : Text} (known : ofLine line = some .assignment) :
    ∃ name rest body, ownName? line.trim = some (name, rest) ∧ line.trim = body ++ [';'] ∧
      VariableLine.ofLine? line = some (.assignment ((splitOutside ',' body).map Fragment.ofText)) := by
  obtain ⟨name, rest, own⟩ := ownName?_of_ofLine known
  have assigns : isAssignment line.trim = true := fits_of_ofLine known
  rw [isAssignment, own] at assigns
  dsimp only at assigns
  split at assigns
  · next value behind =>
    rw [Bool.and_eq_true] at assigns
    obtain ⟨body, rfl⟩ := exists_of_hasBody assigns.2
    obtain ⟨blanks, spaced, -⟩ := exists_of_trimLeft rest
    have whole : line.trim = name ++ blanks ++ '=' :: body ++ [';'] := by
      rw [← append_of_rawName? (ownName?_eq_some_iff.mp own).1, spaced, behind]
      simp
    refine ⟨name, rest, _, own, whole, ?_⟩
    rw [ofLine?_of_ownName? own, whole, fragmentsOf_append]
  · cases assigns

end Statement
end Linewise
