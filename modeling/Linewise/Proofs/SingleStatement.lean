import Linewise.Proofs.SpelledParts
import Linewise.Proofs.StoredLiterals

/-! The semicolon at the end of a line is the only one of the line itself. Where a line that is
accepted has another, that one stands in a value, and the value was looked at as a whole: a
string may hold anything, semicolons and the quotes of other strings among them. As long as no
string holds a quote of its own, the line ends where its first open semicolon stands. -/

namespace Linewise
open Text

namespace Literal

variable {t : Text} {ty : Ty}

theorem isPlain_of_isNumeric (numeric : isNumeric t = true) : ∀ c ∈ t, IsPlain ';' c := by
  intro c member
  cases isNumeral_of_isNumeric numeric c member with
  | plus | minus | point => decide
  | digit digit =>
    apply isPlain_of_isWordChar (by decide)
    simp [isWordChar, Char.isAlphanum, digit]

def IsRequoted (t : Text) : Prop :=
  ∃ quote inner, isQuote quote = true ∧ quote ∈ inner ∧ t = quote :: inner ++ [quote]

private theorem seals_or_isRequoted_of_quoted {quote : Char} (quoted : isQuote quote = true) (inner : Text) :
    Seals ';' none (quote :: inner ++ [quote]) ∨ IsRequoted (quote :: inner ++ [quote]) := by
  by_cases own : quote ∈ inner
  · exact Or.inr ⟨quote, inner, quoted, own, rfl⟩
  · exact Or.inl (seals_of_quoted quoted own)

theorem seals_or_isRequoted (written : isOf ty t = true) : Seals ';' none t ∨ IsRequoted t := by
  cases ty with
  | int => exact Or.inl (seals_of_plain (isPlain_of_isNumeric (isNumeric_of_isOf rfl written)))
  | double => exact Or.inl (seals_of_plain (isPlain_of_isNumeric (isNumeric_of_isOf rfl written)))
  | boolean =>
    simp only [isOf, isBoolean, Bool.or_eq_true, beq_iff_eq] at written
    rcases written with rfl | rfl <;> exact Or.inl (by decide)
  | char =>
    simp only [isOf] at written
    unfold isChar at written
    split at written
    · next opening c closing =>
      simp only [Bool.and_eq_true, beq_iff_eq] at written
      obtain ⟨rfl, rfl⟩ := written
      exact seals_or_isRequoted_of_quoted rfl [c]
    · cases written
  | string =>
    cases t with
    | nil => cases written
    | cons opening rest =>
      simp only [isOf, isString, Bool.and_eq_true, beq_iff_eq] at written
      obtain ⟨rfl, last⟩ := written
      obtain ⟨inner, rfl⟩ := List.getLast?_eq_some_iff.mp last
      exact seals_or_isRequoted_of_quoted rfl inner

end Literal

namespace SingleStatement
open Run

variable {methods : MethodTable} {scopes : Scopes} {line : Text}

structure Holds (line front : Text) : Prop where
  ends : line.trim = front ++ [';']
  filled : FilledWith ';' (Check.values line) front
  seals : Seals ';' none front ↔ ∀ t ∈ Check.values line, Seals ';' none t

/-- A line about variables is a row of fragments, behind nothing but words and blanks. -/
theorem exists_body (known : Statement.ofLine line = some .declaration ∨ Statement.ofLine line = some .assignment) :
    ∃ front body read, line.trim = front ++ body ++ [';'] ∧ front.IsSpread ∧
      VariableLine.ofLine? line = some read ∧ read.fragments = (body.splitOutside ',').map Fragment.ofText := by
  rcases known with known | known
  · obtain ⟨isFinal, ty, body, typed, read⟩ := Statement.exists_of_declaration known
    obtain ⟨front, written, whole, -⟩ := Statement.typed?_eq_some_iff.mp typed
    exact ⟨front, body, _, by rw [whole, List.append_assoc], written.isSpread, read, rfl⟩
  · obtain ⟨name, rest, body, own, whole, read⟩ := Statement.exists_of_assignment known
    exact ⟨[], body, _, whole, List.forall_mem_nil _, read, rfl⟩

/-- What stands between the brackets of a call has only words, blanks and brackets around it. -/
theorem exists_of_call? {callee given : Text} (known : Statement.call? line = some (callee, given)) :
    ∃ front behind, line.trim = front ++ given ++ behind ++ [';'] ∧ (∀ c ∈ front, IsPlain ';' c) ∧
      (∀ c ∈ behind, IsPlain ';' c) ∧ given.trim = given := by
  obtain ⟨⟨name, rest⟩, own, found⟩ := Option.bind_eq_some_iff.mp known
  obtain ⟨inner, bracketed, same⟩ := Option.bind_eq_some_iff.mp found
  cases same
  obtain ⟨space, blanks, left, right, rfl⟩ := bracketed?_eq_some_iff.mp bracketed
  obtain ⟨before, after, around, first, last⟩ := exists_of_trim inner
  have named := (Statement.ownName?_eq_some_iff.mp own).1
  have words := all_of_isRawName (rawName?_eq_some_iff.mp named).2.1
  have opening : IsPlain ';' '(' := by decide
  have closing : IsPlain ';' ')' := by decide
  refine ⟨callee ++ space ++ '(' :: before, after ++ ')' :: blanks, ?_, ?_, ?_, trim_trim inner⟩
  · rw [← append_of_rawName? named]
    conv => lhs; rw [around]
    simp
  · exact List.forall_mem_append.mpr ⟨((IsSpread.of_words words).append (.of_blanks left)).isPlain,
      List.forall_mem_cons.mpr ⟨opening, (IsSpread.of_blanks first).isPlain⟩⟩
  · exact List.forall_mem_append.mpr ⟨(IsSpread.of_blanks last).isPlain,
      List.forall_mem_cons.mpr ⟨closing, (IsSpread.of_blanks right).isPlain⟩⟩

private theorem holds_of_fragments {front body : Text} {read : VariableLine} (ends : line.trim = front ++ body ++ [';'])
    (spread : front.IsSpread) (values : Check.values line = read.fragments.filterMap Fragment.value?)
    (cut : read.fragments = (body.splitOutside ',').map Fragment.ofText)
    (named : ∀ fragment ∈ read.fragments, isIdentifier fragment.name = true) : Holds line (front ++ body) := by
  have comma : IsPlain ';' ',' := by decide
  have shaped : ∀ piece ∈ body.splitOutside ',', isIdentifier (Fragment.ofText piece).name = true := by
    intro piece member
    apply named
    rw [cut]
    exact List.mem_map.mpr ⟨piece, member, rfl⟩
  have gathered : Check.values line = (body.splitOutside ',').flatMap fun piece => (Fragment.ofText piece).value?.toList := by
    rw [values, cut, List.filterMap_map]
    exact List.filterMap_eq_flatMap_toList _ _
  refine ⟨ends, ?_, ?_⟩
  · have filled := FilledWith.of_pieces comma fun piece member => (Fragment.shape (shaped piece member)).1
    rw [splitOutside, intercalate_splitFrom, ← splitOutside, ← gathered] at filled
    exact (FilledWith.of_plain spread.isPlain).append filled
  · rw [seals_append_of_plain spread.isPlain, seals_iff_of_splitOutside comma, gathered]
    constructor
    · intro sealed t member
      obtain ⟨piece, cutOut, given⟩ := List.mem_flatMap.mp member
      exact (Fragment.shape (shaped piece cutOut)).2.mp (sealed piece cutOut) t (Option.mem_toList.mp given)
    · intro sealed piece cutOut
      refine (Fragment.shape (shaped piece cutOut)).2.mpr ?_
      intro t given
      exact sealed t (List.mem_flatMap.mpr ⟨piece, cutOut, Option.mem_toList.mpr given⟩)

theorem values_of_variables {read : VariableLine}
    (known : Statement.ofLine line = some .declaration ∨ Statement.ofLine line = some .assignment)
    (found : VariableLine.ofLine? line = some read) : Check.values line = read.fragments.filterMap Fragment.value? := by
  rcases known with known | known <;>
    simp [Check.values, Statement.values, VariableLine.valuesOf, known, found]

theorem values_of_call {callee given : Text} (known : Statement.ofLine line = some (.call callee given)) :
    Check.values line = (Check.argumentsOf given).map Text.trim := by
  simp [Check.values, Statement.values, known]

private theorem shape_of_arguments {given : Text} (trimmed : given.trim = given) :
    FilledWith ';' ((Check.argumentsOf given).map Text.trim) given ∧
      (Seals ';' none given ↔ ∀ t ∈ (Check.argumentsOf given).map Text.trim, Seals ';' none t) := by
  have comma : IsPlain ';' ',' := by decide
  rw [Check.argumentsOf, trimmed]
  split
  · next empty =>
    rw [List.isEmpty_iff.mp empty]
    exact ⟨.nil, by simp [seals_nil]⟩
  · have filled := FilledWith.of_pieces comma fun piece (_ : piece ∈ given.splitOutside ',') => filledWith_trim piece
    rw [splitOutside, intercalate_splitFrom, ← splitOutside] at filled
    refine ⟨by rwa [List.map_eq_flatMap], ?_⟩
    rw [seals_iff_of_splitOutside comma, List.forall_mem_map]
    simp only [seals_trim]

private theorem holds_of_call {callee given : Text} (known : Statement.ofLine line = some (.call callee given)) :
    ∃ front, Holds line front := by
  have fits : Statement.call? line.trim = some (callee, given) := Statement.fits_of_ofLine known
  obtain ⟨front, behind, whole, first, last, trimmed⟩ := exists_of_call? fits
  rw [trim_trim] at whole
  obtain ⟨filled, seals⟩ := shape_of_arguments trimmed
  refine ⟨_, whole, ?_, ?_⟩
  · rw [values_of_call known]
    have inner := ((FilledWith.of_plain first).append filled).append (.of_plain last)
    rwa [List.nil_append, List.append_nil] at inner
  · rw [values_of_call known, ← seals, List.append_assoc, seals_append_of_plain first, seals_append_plain last]

/-- Each value of a line that passes is a value as a whole, and the rest of the line is plain. -/
theorem holds_of_passes (passes : Check.Passes methods scopes line) :
    (∃ front, Holds line front) ∧ ∀ t ∈ Check.values line, Check.IsValue scopes t := by
  cases passes with
  | variableLine known changed =>
    obtain ⟨front, body, read, ends, spread, found, cut⟩ := exists_body known
    have values := values_of_variables known found
    have gives := Check.gives_of_variableLine found changed
    refine ⟨⟨_, holds_of_fragments ends spread values cut fun fragment member => (gives fragment member).1⟩, ?_⟩
    intro t member
    rw [values] at member
    obtain ⟨fragment, there, given⟩ := List.mem_filterMap.mp member
    have valued := (gives fragment there).2 t given
    rw [cut] at there
    obtain ⟨piece, -, rfl⟩ := List.mem_map.mp there
    rwa [Fragment.trim_of_value? given] at valued
  | call known called =>
    refine ⟨holds_of_call known, ?_⟩
    intro t member
    rw [values_of_call known] at member
    obtain ⟨argument, there, rfl⟩ := List.mem_map.mp member
    exact Check.isValue_of_call called argument there

/-- What is not sealed by itself is a text in quotes that holds its own quote, or is no proper name. -/
theorem seals_or_of_isValue {t : Text} (valued : Check.IsValue scopes t) :
    Seals ';' none t ∨ Literal.IsRequoted t ∨ isIdentifier t = false ∧ ∃ binding, scopes.lookup t = some binding := by
  have named (identifier : isIdentifier t = true) : Seals ';' none t := by
    apply seals_of_plain
    exact fun c member => isPlain_of_isWordChar (by decide) (isWordChar_of_isIdentifier identifier c member)
  cases valued with
  | literal written => exact (Literal.seals_or_isRequoted written).imp_right Or.inl
  | name identifier => exact Or.inl (named identifier)
  | @bound binding found =>
    cases identifier : isIdentifier t with
    | true => exact Or.inl (named identifier)
    | false => exact Or.inr (Or.inr ⟨rfl, binding, found⟩)

/-- A line that is accepted ends in a semicolon, and all that is no value in it is free of quotes
and of other semicolons. Each value is one as a whole. So the last semicolon is the only one
outside of quotes as long as each value closes its quotes and hides its semicolons, which all do
but a text in quotes that holds its own quote, or a variable with an improper name. -/
theorem open_semicolon_is_last (passes : Check.Passes methods scopes line) :
    ∃ front, line.trim = front ++ [';'] ∧ FilledWith ';' (Check.values line) front ∧
      (∀ t ∈ Check.values line, Check.IsValue scopes t ∧
        (¬ Seals ';' none t →
          Literal.IsRequoted t ∨ isIdentifier t = false ∧ ∃ binding, scopes.lookup t = some binding)) ∧
      (line.trim.splitOutside ';' = [front, []] ↔ ∀ t ∈ Check.values line, Seals ';' none t) := by
  obtain ⟨⟨front, holds⟩, valued⟩ := holds_of_passes passes
  refine ⟨front, holds.ends, holds.filled, ?_, ?_⟩
  · intro t member
    refine ⟨valued t member, ?_⟩
    intro unsealed
    rcases seals_or_of_isValue (valued t member) with sealed | other
    · exact absurd sealed unsealed
    · exact other
  · rw [holds.ends, splitOutside, splitFrom_append_mark rfl, holds.seals]

def listed : Text :=
  "String s = \"a; b\", t = s;".toList

theorem listed_passes : Check.Passes {} {} listed := by
  have known : Statement.ofLine listed = some .declaration := by decide
  have changed : ending (Check.variableLine listed) {} =
      (.ok (), ⟨[⟨['t'], .string, false, true, some "\"a; b\"".toList⟩,
        ⟨['s'], .string, false, true, some "\"a; b\"".toList⟩], []⟩) := by
    decide +kernel
  exact .variableLine (Or.inl known) changed

theorem listed_ends_once :
    Check.Passes {} {} listed ∧ ∃ front, listed.trim = front ++ [';'] ∧ listed.trim.splitOutside ';' = [front, []] := by
  obtain ⟨front, ends, -, -, once⟩ := open_semicolon_is_last listed_passes
  refine ⟨listed_passes, front, ends, once.mpr ?_⟩
  decide

/-- Two statements to a reader, and one string from its first quote to its last. -/
def doubled : Text :=
  "String s = \"a\"; int x = \"b\";".toList

theorem doubled_passes :
    Check.Passes {} {} doubled ∧ ¬ ∃ front, doubled.trim.splitOutside ';' = [front, []] := by
  have known : Statement.ofLine doubled = some .declaration := by decide
  have changed : ending (Check.variableLine doubled) {} =
      (.ok (), ⟨[⟨['s'], .string, false, true, some "\"a\"; int x = \"b\"".toList⟩], []⟩) := by
    decide +kernel
  refine ⟨.variableLine (Or.inl known) changed, ?_⟩
  rintro ⟨front, cut⟩
  have pieces : (doubled.trim.splitOutside ';').length = 3 := by decide
  rw [cut] at pieces
  cases pieces

end SingleStatement
end Linewise
