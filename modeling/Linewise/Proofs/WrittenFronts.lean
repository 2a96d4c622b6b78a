import Linewise.Proofs.GivenValues
import Linewise.Proofs.TextSqueeze

/-! What stands in front of the names that a line declares, and of the name of a parameter: a type,
perhaps behind the word `final`, with blanks behind each word. The front of a text is found exactly
where it is written, whatever blanks are used and whatever follows them. -/

namespace Linewise
open Text

namespace Text

variable {t rest gap : Text}

theorem trimLeft_of_name {name : Text} (raw : isRawName name = true) (rest : Text) :
    trimLeft (name ++ rest) = name ++ rest := by
  cases name with
  | nil => cases raw
  | cons c name => exact trimLeft_ink (ink_of_isRawName raw c (by simp)) (name ++ rest)

structure IsGap (gap : Text) : Prop where
  shown : gap ≠ []
  blank : ∀ c ∈ gap, isBlank c = true

/-- All blanks are passed, so none is left in front of the rest. -/
theorem afterBlanks?_iff_gap : t.afterBlanks? = some rest ↔ ∃ gap, t = gap ++ rest ∧ gap.IsGap ∧ rest.trimLeft = rest := by
  rw [afterBlanks?_eq_some_iff]
  constructor
  · rintro ⟨c, more, rfl, blank, rfl⟩
    obtain ⟨blanks, whole, others⟩ := exists_of_trimLeft more
    refine ⟨c :: blanks, ?_, ⟨List.cons_ne_nil _ _, List.forall_mem_cons.mpr ⟨blank, others⟩⟩, trimLeft_trimLeft more⟩
    rw [List.cons_append, ← whole]
  · rintro ⟨gap, rfl, spaced, bare⟩
    obtain ⟨c, blanks, rfl⟩ := List.exists_cons_of_ne_nil spaced.shown
    obtain ⟨blank, others⟩ := List.forall_mem_cons.mp spaced.blank
    exact ⟨c, blanks ++ rest, rfl, blank, by rw [trimLeft_append_blanks others, bare]⟩

theorem IsGap.append_blanks (spaced : gap.IsGap) {more : Text} (blank : ∀ c ∈ more, isBlank c = true) :
    IsGap (gap ++ more) where
  shown := by simp [spaced.shown]
  blank := List.forall_mem_append.mpr ⟨spaced.blank, blank⟩

theorem isGap_space : IsGap [' '] :=
  ⟨List.cons_ne_nil _ _, by simp [isBlank_space]⟩

theorem IsGap.startsWord (spaced : gap.IsGap) (t : Text) : startsWord (gap ++ t) = false := by
  obtain ⟨c, blanks, rfl⟩ := List.exists_cons_of_ne_nil spaced.shown
  exact isWordChar_of_isBlank (spaced.blank c List.mem_cons_self)

end Text

namespace Statement

inductive IsFront : Bool → Ty → Text → Prop where
  | changeable {ty gap} (spaced : gap.IsGap) : IsFront false ty (ty.keyword ++ gap)
  | final {ty space gap} (apart : space.IsGap) (spaced : gap.IsGap) :
    IsFront true ty (Keyword.final ++ space ++ (ty.keyword ++ gap))

def front (isFinal : Bool) (ty : Ty) : Text :=
  (if isFinal then Keyword.final ++ [' '] else []) ++ ty.keyword ++ [' ']

variable {t rest front : Text} {isFinal : Bool} {ty : Ty}

theorem isFront_front (isFinal : Bool) (ty : Ty) : IsFront isFinal ty (Statement.front isFinal ty) := by
  cases isFinal with
  | false => exact .changeable isGap_space
  | true =>
    rw [Statement.front, if_pos rfl, List.append_assoc]
    exact .final isGap_space isGap_space

namespace IsFront

theorem append_blanks (written : IsFront isFinal ty front) {more : Text} (blank : ∀ c ∈ more, isBlank c = true) :
    IsFront isFinal ty (front ++ more) := by
  cases written with
  | changeable spaced =>
    rw [List.append_assoc]
    exact .changeable (spaced.append_blanks blank)
  | final apart spaced =>
    rw [List.append_assoc (_ ++ _), List.append_assoc (Ty.keyword _)]
    exact .final apart (spaced.append_blanks blank)

theorem isSpread (written : IsFront isFinal ty front) : front.IsSpread := by
  have final : Keyword.final.IsSpread := .of_words (all_of_isRawName VariableLine.isRawName_final)
  have keyword (ty : Ty) : ty.keyword.IsSpread := .of_words (all_of_isRawName (VariableLine.isRawName_keyword ty))
  cases written with
  | changeable spaced => exact (keyword _).append (.of_blanks spaced.blank)
  | final apart spaced => exact (final.append (.of_blanks apart.blank)).append ((keyword _).append (.of_blanks spaced.blank))

theorem exists_ink (written : IsFront isFinal ty front) : ∃ c rest, front = c :: rest ∧ isBlank c = false := by
  cases written with
  | changeable spaced => cases ty <;> exact ⟨_, _, rfl, rfl⟩
  | final apart spaced => exact ⟨_, _, rfl, rfl⟩

end IsFront

theorem afterType?_iff_gap :
    afterType? t = some (ty, rest) ↔ ∃ gap, t = ty.keyword ++ gap ++ rest ∧ gap.IsGap ∧ rest.trimLeft = rest := by
  rw [afterType?_eq_some_iff]
  constructor
  · rintro ⟨more, rfl, spaced⟩
    obtain ⟨gap, rfl, isGap, bare⟩ := afterBlanks?_iff_gap.mp spaced
    exact ⟨gap, (List.append_assoc _ _ _).symm, isGap, bare⟩
  · rintro ⟨gap, rfl, isGap, bare⟩
    exact ⟨gap ++ rest, List.append_assoc _ _ _, afterBlanks?_iff_gap.mpr ⟨gap, rfl, isGap, bare⟩⟩

private theorem afterWord?_final_of_keyword (ty : Ty) (t : Text) : afterWord? (ty.keyword ++ t) Keyword.final = none := by
  cases ty <;> simp [afterWord?, after?, Ty.keyword, Keyword.final]

/-- A front is found where one is written, and what is left starts with no blank. -/
theorem typed?_eq_some_iff :
    typed? t = some (isFinal, ty, rest) ↔ ∃ front, IsFront isFinal ty front ∧ t = front ++ rest ∧ rest.trimLeft = rest := by
  constructor
  · intro typed
    rcases typed?_cases typed with ⟨rfl, -, read⟩ | ⟨rfl, after, middle, final, blanks, read⟩
    · obtain ⟨gap, whole, isGap, bare⟩ := afterType?_iff_gap.mp read
      exact ⟨_, .changeable isGap, whole, bare⟩
    · obtain ⟨rfl, -⟩ := afterWord?_eq_some_iff.mp final
      obtain ⟨space, rfl, apart, -⟩ := afterBlanks?_iff_gap.mp blanks
      obtain ⟨gap, rfl, isGap, bare⟩ := afterType?_iff_gap.mp read
      exact ⟨_, .final apart isGap, by simp, bare⟩
  · rintro ⟨front, written, rfl, bare⟩
    cases written with
    | @changeable ty gap spaced =>
      have read : afterType? (ty.keyword ++ gap ++ rest) = some (ty, rest) :=
        afterType?_iff_gap.mpr ⟨gap, rfl, spaced, bare⟩
      rw [typed?, List.append_assoc, afterWord?_final_of_keyword, ← List.append_assoc, read]
      rfl
    | @final ty space gap apart spaced =>
      have read : afterType? (ty.keyword ++ gap ++ rest) = some (ty, rest) :=
        afterType?_iff_gap.mpr ⟨gap, rfl, spaced, bare⟩
      have keyword : trimLeft (ty.keyword ++ gap ++ rest) = ty.keyword ++ gap ++ rest := by
        rw [List.append_assoc, trimLeft_of_name (VariableLine.isRawName_keyword ty)]
      have behind : afterWord? (Keyword.final ++ space ++ (ty.keyword ++ gap) ++ rest) Keyword.final =
          some (space ++ (ty.keyword ++ gap ++ rest)) :=
        afterWord?_eq_some_iff.mpr ⟨by simp, apart.startsWord _⟩
      have blanks : afterBlanks? (space ++ (ty.keyword ++ gap ++ rest)) = some (ty.keyword ++ gap ++ rest) :=
        afterBlanks?_iff_gap.mpr ⟨space, rfl, apart, keyword⟩
      rw [typed?, behind]
      dsimp only
      rw [blanks, Option.bind_some, read, Option.map_some]

/-- The words in front of a declaration, and then what follows the blanks behind them. -/
theorem IsFront.typed? (written : IsFront isFinal ty front) (t : Text) :
    typed? (front ++ t) = some (isFinal, ty, t.trimLeft) := by
  obtain ⟨blanks, whole, blank⟩ := exists_of_trimLeft t
  refine typed?_eq_some_iff.mpr ⟨_, written.append_blanks blank, ?_, trimLeft_trimLeft t⟩
  rw [List.append_assoc, ← whole]

end Statement
end Linewise
