import Linewise.Proofs.OutlineSegments
import Linewise.Proofs.SpelledParts

/-! The header of a method, as it may be written. A header makes a method exactly where it is written
like this, with blanks wherever they may stand, and the method is the one that is written there. -/

namespace Linewise
open Text

namespace Statement

/-- The ways to write the head of a method, with any raw name and anything for its parameters but
further brackets. -/
inductive SpelledHead (name inner : Text) : Text → Prop where
  | intro {gap space after} (spaced : gap.IsGap) (raw : isRawName name = true) (left : ∀ c ∈ space, isBlank c = true)
      (bare : ∀ c ∈ inner, isParenthesis c = false) (last : ∀ c ∈ after, isBlank c = true) :
    SpelledHead name inner (Keyword.void ++ gap ++ name ++ (space ++ '(' :: inner ++ ')' :: after ++ ['{']))

theorem methodHead?_eq_some_iff {line name inner : Text} :
    methodHead? line = some (name, inner) ↔ SpelledHead name inner line.trim := by
  constructor
  · intro head
    obtain ⟨rest, worded, head⟩ := Option.bind_eq_some_iff.mp head
    obtain ⟨behind, blanks, head⟩ := Option.bind_eq_some_iff.mp head
    obtain ⟨⟨word, brackets⟩, named, head⟩ := Option.bind_eq_some_iff.mp head
    obtain ⟨parameters, bracketed, head⟩ := Option.bind_eq_some_iff.mp head
    split at head
    · cases head
    · next bare =>
      cases head
      obtain ⟨whole, -⟩ := afterWord?_eq_some_iff.mp worded
      obtain ⟨gap, rfl, spaced, -⟩ := afterBlanks?_iff_gap.mp blanks
      obtain ⟨rfl, raw, -⟩ := rawName?_eq_some_iff.mp named
      obtain ⟨space, after, left, last, rfl⟩ := bracketed?_eq_some_iff.mp bracketed
      have spelled : line.trim = Keyword.void ++ gap ++ name ++ (space ++ '(' :: inner ++ ')' :: after ++ ['{']) := by
        rw [whole]
        simp
      rw [spelled]
      exact .intro spaced raw left (by simpa using bare) last
  · intro spelled
    generalize whole : line.trim = t at spelled
    cases spelled with
    | @intro gap space after spaced raw left bare last =>
      obtain ⟨rest, brackets, bracketed, stops⟩ := brackets_spelled left last inner '{'
      rw [brackets] at whole
      generalize rest ++ ['{'] = rest at whole bracketed stops
      have void : line.trim.afterWord? Keyword.void = some (gap ++ (name ++ rest)) :=
        afterWord?_eq_some_iff.mpr ⟨by rw [whole]; simp, spaced.startsWord _⟩
      have blanks : afterBlanks? (gap ++ (name ++ rest)) = some (name ++ rest) :=
        afterBlanks?_iff_gap.mpr ⟨gap, rfl, spaced, trimLeft_of_name raw rest⟩
      have named : rawName? (name ++ rest) = some (name, rest) := rawName?_eq_some_iff.mpr ⟨rfl, raw, stops⟩
      have unbracketed : inner.any isParenthesis = false := by simpa using bare
      simp only [methodHead?, void, Option.bind_eq_bind, Option.bind_some, blanks, named, bracketed, unbracketed,
        Bool.false_eq_true, if_false]

end Statement

namespace Parameter
open Statement

inductive Spelled : Parameter → Text → Prop where
  | intro {name ty isFinal before front after} (first : ∀ c ∈ before, isBlank c = true)
      (typed : IsFront isFinal ty front) (named : isIdentifier name = true) (last : ∀ c ∈ after, isBlank c = true) :
    Spelled ⟨name, ty, isFinal⟩ (before ++ (front ++ name) ++ after)

variable {parameter : Parameter} {t : Text}

private theorem trim_of_spelled {isFinal : Bool} {ty : Ty} {front name : Text} (typed : IsFront isFinal ty front)
    (named : isIdentifier name = true) : trim (front ++ name) = front ++ name := by
  obtain ⟨c, rest, rfl, first⟩ := typed.exists_ink
  rcases List.eq_nil_or_concat name with rfl | ⟨initial, last, rfl⟩
  · cases named
  · have final : isBlank last = false := ink_of_isIdentifier named last (by simp)
    rw [List.concat_eq_append, ← List.append_assoc]
    exact trim_of_ends first final (rest ++ initial)

theorem ofText?_eq_some_iff : ofText? t = some parameter ↔ parameter.Spelled t := by
  constructor
  · intro read
    obtain ⟨⟨isFinal, ty, name⟩, typed, read⟩ := Option.bind_eq_some_iff.mp read
    dsimp only at read
    split at read
    · next named =>
      cases read
      obtain ⟨front, written, whole, -⟩ := typed?_eq_some_iff.mp typed
      obtain ⟨before, after, around, first, last⟩ := exists_of_trim t
      rw [whole] at around
      rw [around]
      exact .intro first written named last
    · cases read
  · intro spelled
    cases spelled with
    | @intro name ty isFinal before front after first typed named last =>
      have bare : name.trimLeft = name := by
        rw [← List.append_nil name, trimLeft_of_name (isRawName_of_isIdentifier named)]
      have read : typed? (front ++ name) = some (isFinal, ty, name) := typed?_eq_some_iff.mpr ⟨front, typed, rfl, bare⟩
      rw [ofText?, trim_between_blanks first last, trim_of_spelled typed named, read]
      simp [named]

theorem Spelled.isSpread (spelled : parameter.Spelled t) : t.IsSpread := by
  cases spelled with
  | intro first typed named last =>
    exact ((IsSpread.of_blanks first).append (typed.isSpread.append (.of_words (isWordChar_of_isIdentifier named)))).append
      (.of_blanks last)

/-- A parameter is not only blanks. -/
theorem Spelled.exists_ink (spelled : parameter.Spelled t) : ∃ c ∈ t, isBlank c = false := by
  cases spelled with
  | intro first typed named last =>
    obtain ⟨c, rest, rfl, ink⟩ := typed.exists_ink
    exact ⟨c, by simp, ink⟩

end Parameter

namespace Method
open Statement

inductive SpelledParameters : List Parameter → Text → Prop where
  | none {gap} (blank : ∀ c ∈ gap, isBlank c = true) : SpelledParameters [] gap
  | row {parameters texts} (some : parameters ≠ []) (spelled : List.Forall₂ Parameter.Spelled parameters texts) :
    SpelledParameters parameters ([','].intercalate texts)

inductive SpelledHeader (name : Text) (parameters : List Parameter) : Text → Prop where
  | intro {gap space inner after} (spaced : gap.IsGap) (proper : isMethodName name = true)
      (left : ∀ c ∈ space, isBlank c = true) (listed : SpelledParameters parameters inner)
      (last : ∀ c ∈ after, isBlank c = true) :
    SpelledHeader name parameters (Keyword.void ++ gap ++ name ++ (space ++ '(' :: inner ++ ')' :: after ++ ['{']))

variable {name t header : Text} {body items : List Text} {parameters : List Parameter} {method : Method}

theorem readParameters_eq_ok_iff :
    readParameters name items = .ok parameters ↔ List.Forall₂ Parameter.Spelled parameters items := by
  induction items generalizing parameters with
  | nil => rw [readParameters, List.forall₂_nil_right_iff, Except.ok.injEq, eq_comm]
  | cons item items ih =>
    rw [readParameters, List.forall₂_cons_right_iff]
    simp only [← ih, ← Parameter.ofText?_eq_some_iff]
    cases Parameter.ofText? item with
    | none => simp
    | some parameter =>
      cases readParameters name items with
      | error fault => simp
      | ok others => simp [eq_comm]

private theorem isSpread_of_forall₂ (spelled : List.Forall₂ Parameter.Spelled parameters items) :
    ∀ item ∈ items, item.IsSpread := by
  induction spelled with
  | nil => exact nofun
  | cons here _ ih => exact List.forall_mem_cons.mpr ⟨here.isSpread, ih⟩

/-- Parameters are written with words, blanks and commas, so no mark other than a comma stands among them. -/
theorem SpelledParameters.not_mem (listed : SpelledParameters parameters t) {c : Char} (unword : isWordChar c = false)
    (ink : isBlank c = false) (apart : c ≠ ',') : c ∉ t := by
  have unlike {item : Text} (spread : item.IsSpread) : ∀ d ∈ item, d ≠ c :=
    fun d member => (spread.isPlain_of_mark unword ink d member).2
  have all : ∀ d ∈ t, d ≠ c := by
    cases listed with
    | none blank => exact unlike (.of_blanks blank)
    | row some spelled =>
      apply forall_mem_intercalate
      · intro d member
        rw [List.mem_singleton.mp member]
        exact apart.symm
      · exact fun item member => unlike (isSpread_of_forall₂ spelled item member)
  exact fun member => all c member rfl

theorem parametersOf_eq_ok_iff : parametersOf name t = .ok parameters ↔ SpelledParameters parameters t := by
  rw [parametersOf]
  constructor
  · intro read
    split at read
    · next empty =>
      cases read
      exact .none (trim_eq_nil_iff.mp (List.isEmpty_iff.mp empty))
    · have spelled := readParameters_eq_ok_iff.mp read
      have joined : [','].intercalate (t.splitOn ',') = t := List.intercalate_splitOn ','
      rw [← joined]
      refine .row ?_ spelled
      rintro rfl
      exact List.splitOn_ne_nil ',' t (List.forall₂_nil_left_iff.mp spelled)
  · intro listed
    cases listed with
    | none blank => rw [if_pos (List.isEmpty_iff.mpr (trim_eq_nil_iff.mpr blank))]
    | @row _ texts some spelled =>
      cases spelled with
      | nil => exact absurd rfl some
      | @cons parameter text parameters texts here later =>
        have spread : ∀ item ∈ text :: texts, item.IsSpread := isSpread_of_forall₂ (List.Forall₂.cons here later)
        have free : ∀ item ∈ text :: texts, ',' ∉ item :=
          fun item there member => ((spread item there).isPlain_of_mark rfl rfl ',' member).2 rfl
        -- A parameter is not only blanks, so the row is not taken for an empty one.
        have shown : ¬ (trim ([','].intercalate (text :: texts))).isEmpty = true := by
          obtain ⟨c, member, ink⟩ := here.exists_ink
          obtain ⟨rest, whole⟩ := exists_intercalate_cons [','] text texts
          rw [List.isEmpty_iff, trim_eq_nil_iff, whole]
          intro blank
          rw [blank c (List.mem_append_left rest member)] at ink
          cases ink
        rw [if_neg shown, List.splitOn_intercalate ',' free (List.cons_ne_nil _ _)]
        exact readParameters_eq_ok_iff.mpr (.cons here later)

/-- No blank stands around a header. -/
theorem SpelledHeader.trim (spelled : SpelledHeader name parameters t) : t.trim = t := by
  cases spelled with
  | @intro gap space inner after spaced proper left listed last =>
    have whole : Keyword.void ++ gap ++ name ++ (space ++ '(' :: inner ++ ')' :: after ++ ['{']) =
        Keyword.void ++ (gap ++ name ++ space ++ '(' :: inner ++ ')' :: after ++ ['{']) := by
      simp
    rw [whole, trim_of_name (by decide) rfl]

theorem spelledHeader_iff : SpelledHeader name parameters t ↔
    isMethodName name = true ∧ ∃ inner, SpelledHead name inner t ∧ SpelledParameters parameters inner := by
  constructor
  · intro spelled
    cases spelled with
    | @intro gap space inner after spaced proper left listed last =>
      have bare : ∀ c ∈ inner, isParenthesis c = false := by
        intro c member
        rw [isParenthesis, Bool.or_eq_false_iff, beq_eq_false_iff_ne, beq_eq_false_iff_ne]
        constructor
        · rintro rfl
          exact listed.not_mem rfl rfl (by decide) member
        · rintro rfl
          exact listed.not_mem rfl rfl (by decide) member
      exact ⟨proper, inner, .intro spaced (isRawName_of_isIdentifier (isIdentifier_of_isMethodName proper)) left bare last,
        listed⟩
  · rintro ⟨proper, inner, head, listed⟩
    cases head with
    | intro spaced raw left bare last => exact .intro spaced proper left listed last

/-- A header makes the method that is written there, and none where no header is written. -/
theorem ofHeader_iff_spelled : ofHeader header body = .ok method ↔
    SpelledHeader method.name method.parameters header.trim ∧ method.body = body := by
  rw [ofHeader_eq_ok_iff, spelledHeader_iff]
  simp only [methodHead?_eq_some_iff, parametersOf_eq_ok_iff]
  constructor
  · rintro ⟨same, proper, inner, head, listed⟩
    exact ⟨⟨proper, inner, head, listed⟩, same⟩
  · rintro ⟨⟨proper, inner, head, listed⟩, same⟩
    exact ⟨same, proper, inner, head, listed⟩

end Method
end Linewise
