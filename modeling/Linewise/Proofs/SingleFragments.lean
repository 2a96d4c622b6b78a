import Linewise.Proofs.SpelledParts
import Linewise.Proofs.VariableRows

/-! A line about variables could be written as several lines, each with one of its fragments. The
words in front of a declaration are then written in front of each. It does not matter what a
fragment looks like: it is read as it was, even where it can never be accepted. -/

namespace Linewise
open Text Run

/-- A line does what other lines do one after the other, up to the first of them that fails. What
those before it have done remains, and no more. -/
structure ActsAs (line : Text) (singles : List Text) : Prop where
  same : Check.variableLine line = singles.forM Check.variableLine
  stops : ∀ scopes fault last, ending (Check.variableLine line) scopes = (.error fault, last) →
    ∃ before single after, singles = before ++ single :: after ∧
      ending (before.forM Check.variableLine) scopes = (.ok (), last) ∧
      ending (Check.variableLine single) last = (.error fault, last)

namespace SingleFragments
open Statement VariableLine

variable {line body piece : Text} {isFinal : Bool} {ty : Ty}

private theorem actsAs_of_steps {pieces : List Text} {single : Text → Text} {effect : Text → Scopes → Except Fault Scopes}
    (whole : Check.variableLine line = pieces.forM fun piece => step (effect piece))
    (each : ∀ piece ∈ pieces, Check.variableLine (single piece) = step (effect piece)) :
    ActsAs line (pieces.map single) := by
  have same : Check.variableLine line = (pieces.map single).forM Check.variableLine :=
    whole.trans (forM_map_congr each).symm
  refine ⟨same, ?_⟩
  intro scopes fault last failed
  rw [same] at failed
  obtain ⟨before, found, after, middle, cut, passed, fails⟩ := exists_of_forM_error failed
  obtain ⟨piece, member, rfl⟩ : ∃ piece ∈ pieces, single piece = found := List.mem_map.mp (by simp [cut])
  have unchanged := fails
  rw [each piece member, ending_step_eq_error_iff] at unchanged
  obtain ⟨-, rfl⟩ := unchanged
  exact ⟨before, _, after, cut, passed, fails⟩

private theorem forM_singleton (fragment : Fragment) (effect : Fragment → Scopes → Except Fault Scopes) :
    ([fragment].forM fun fragment => step (effect fragment)) = step (effect fragment) :=
  bind_pure (step (effect fragment))

private theorem variableLine_front (member : piece ∈ splitOutside ',' body) :
    Check.variableLine (front isFinal ty ++ piece ++ [';']) = step (Check.declare isFinal ty (Fragment.ofText piece)) := by
  rw [Check.variableLine, ofLine?_front, splitOutside_of_mem member]
  exact forM_singleton _ _

theorem actsAs_of_declaration (known : ofLine line = some .declaration) :
    ∃ isFinal ty body, typed? line.trim = some (isFinal, ty, body ++ [';']) ∧
      ActsAs line ((splitOutside ',' body).map fun piece => front isFinal ty ++ piece ++ [';']) := by
  obtain ⟨isFinal, ty, body, typed, read⟩ := exists_of_declaration known
  exact ⟨isFinal, ty, body, typed, actsAs_of_steps (VariableRows.of_pieces_declared read) fun piece => variableLine_front⟩

private theorem firstWord_of_append {word : Text} (free : ';' ∉ word) (first : firstWord (piece ++ [';']) = word) :
    firstWord piece = word := by
  have semicolon : isBlank ';' = false := rfl
  rw [firstWord, trimLeft_append_ink semicolon, List.takeWhile_append] at first
  split at first
  · subst first
    exact absurd (by simp [semicolon]) free
  · exact first

private theorem variableLine_bare (member : piece ∈ splitOutside ',' body) (unfinal : firstWord piece ≠ Keyword.final)
    (untyped : Ty.ofKeyword? (firstWord piece) = none) :
    Check.variableLine (piece ++ [';']) = step (Check.assign (Fragment.ofText piece)) := by
  have semicolon : isBlank ';' = false := rfl
  have trimmed : (piece ++ [';']).trim = (piece ++ [';']).trimLeft := trim_append_ink semicolon piece
  have first : firstWord (piece ++ [';']).trimLeft = firstWord (piece ++ [';']) := by
    rw [firstWord, trimLeft_trimLeft, firstWord]
  have unspaced : afterSpaced? (piece ++ [';']).trimLeft Keyword.final = none := by
    cases found : afterSpaced? (piece ++ [';']).trimLeft Keyword.final with
    | none => rfl
    | some rest =>
      obtain ⟨more, spelled, spaced⟩ := afterSpaced?_eq_some_iff.mp found
      have word := firstWord_append isRawName_final spaced
      rw [← spelled, first] at word
      exact absurd (firstWord_of_append (by decide) word) unfinal
  have bare : Ty.ofKeyword? (firstWord (piece ++ [';']).trimLeft) = none := by
    cases found : Ty.ofKeyword? (firstWord (piece ++ [';']).trimLeft) with
    | none => rfl
    | some ty =>
      have word := Ty.ofKeyword?_eq_some_iff.mp found
      rw [first] at word
      rw [firstWord_of_append (by cases ty <;> decide) word, Ty.ofKeyword?_eq_some_iff.mpr rfl] at untyped
      cases untyped
  have read : VariableLine.ofLine? (piece ++ [';']) = some (.assignment [Fragment.ofText piece]) := by
    simp [VariableLine.ofLine?, trimmed, unspaced, bare, fragmentsOf_trimLeft, splitOutside_of_mem member]
  rw [Check.variableLine, read]
  exact forM_singleton _ _

theorem actsAs_of_assignment (known : ofLine line = some .assignment) :
    ∃ body, line.trim = body ++ [';'] ∧
      ((∀ piece ∈ splitOutside ',' body, firstWord piece ≠ Keyword.final ∧ Ty.ofKeyword? (firstWord piece) = none) →
        ActsAs line ((splitOutside ',' body).map (· ++ [';']))) := by
  obtain ⟨-, -, body, -, whole, read⟩ := exists_of_assignment known
  refine ⟨body, whole, fun unlike => actsAs_of_steps (VariableRows.of_pieces_assigned read) fun piece member => ?_⟩
  obtain ⟨unfinal, untyped⟩ := unlike piece member
  exact variableLine_bare member unfinal untyped

/-- A declaration of several names acts as the declarations of the single names, and an assignment
as the single assignments, as long as none of these has a word of a declaration in front. -/
theorem acts_as_single_lines (line : Text) :
    (ofLine line = some .declaration →
      ∃ isFinal ty body, typed? line.trim = some (isFinal, ty, body ++ [';']) ∧
        ActsAs line ((splitOutside ',' body).map fun piece => front isFinal ty ++ piece ++ [';'])) ∧
    (ofLine line = some .assignment →
      ∃ body, line.trim = body ++ [';'] ∧
        ((∀ piece ∈ splitOutside ',' body, firstWord piece ≠ Keyword.final ∧ Ty.ofKeyword? (firstWord piece) = none) →
          ActsAs line ((splitOutside ',' body).map (· ++ [';'])))) :=
  ⟨actsAs_of_declaration, actsAs_of_assignment⟩

/-- A type behind a comma is no part of a declaration, but it would be one in a line of its own. -/
example :
    (ending (Check.variableLine "x = 1, int y = 2;".toList) ⟨[⟨['x'], .int, false, false, none⟩], []⟩).1 =
        .error (.invalidIdentifier "int y".toList) ∧
      (ending (["x = 1;".toList, " int y = 2;".toList].forM Check.variableLine)
        ⟨[⟨['x'], .int, false, false, none⟩], []⟩).1 = .ok () := by
  constructor <;> decide +kernel

end SingleFragments
end Linewise
