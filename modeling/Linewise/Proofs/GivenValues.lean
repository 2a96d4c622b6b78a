import Linewise.Proofs.MentionedNames
import Linewise.Proofs.QuoteScan
import Linewise.Proofs.VariableEffects

/-! The values that a line gives are the only parts of it that may hold quotes and semicolons.
Its other parts are names, types and marks. A check that passes has looked at each value as a whole:
it is a literal, or it names a variable. -/

namespace Linewise
open Text

def VariableLine.valuesOf (line : Text) : List Text :=
  (VariableLine.ofLine? line).elim [] fun read => read.fragments.filterMap Fragment.value?

def Statement.values (line : Text) : Statement → List Text
  | .declaration | .assignment => VariableLine.valuesOf line
  | .call _ given => (Check.argumentsOf given).map Text.trim
  | .methodHead _ _ | .blockHead _ | .blockEnd | .ret => []

/-- The values that a line gives to variables or to a method, if it is a statement at all. -/
def Check.values (line : Text) : List Text :=
  (Statement.ofLine line).elim [] (Statement.values line)

/-- A text that may stand for a value: a literal, or what is bound in the scopes, or what a line
could have bound by itself. -/
inductive Check.IsValue (scopes : Scopes) (t : Text) : Prop where
  | literal {ty : Ty} (written : Literal.isOf ty t = true)
  | name (identifier : isIdentifier t = true)
  | bound {binding} (found : scopes.lookup t = some binding)

/-- The check takes a line that gives values, or one that would if it had any. -/
inductive Check.Passes (methods : MethodTable) (scopes : Scopes) (line : Text) : Prop where
  | variableLine {after} (known : Statement.ofLine line = some .declaration ∨ Statement.ofLine line = some .assignment)
      (changed : Run.ending (Check.variableLine line) scopes = (.ok (), after))
  | call {callee given} (known : Statement.ofLine line = some (.call callee given))
      (called : Check.call methods scopes callee given = .ok ())

namespace Text

variable {t : Text} {mark : Char}

theorem isPlain_of_isWordChar (unword : isWordChar mark = false) {c : Char} (word : isWordChar c = true) : IsPlain mark c := by
  constructor
  · rw [← Bool.not_eq_true]
    intro quoted
    simp only [isQuote, Bool.or_eq_true, beq_iff_eq] at quoted
    rcases quoted with rfl | rfl <;> cases word
  · rintro rfl
    rw [unword] at word
    cases word

theorem isPlain_of_isBlank (ink : isBlank mark = false) {c : Char} (blank : isBlank c = true) : IsPlain mark c := by
  constructor
  · have free : blanks.all (fun c => !isQuote c) = true := by decide
    simpa using List.all_eq_true.mp free c (isBlank_iff.mp blank)
  · rintro rfl
    rw [ink] at blank
    cases blank

def IsSpread (t : Text) : Prop :=
  ∀ c ∈ t, isWordChar c = true ∨ isBlank c = true

namespace IsSpread

variable {rest : Text}

theorem of_blanks (blank : ∀ c ∈ t, isBlank c = true) : t.IsSpread :=
  fun c member => Or.inr (blank c member)

theorem of_words (words : ∀ c ∈ t, isWordChar c = true) : t.IsSpread :=
  fun c member => Or.inl (words c member)

theorem append (first : t.IsSpread) (second : rest.IsSpread) : (t ++ rest).IsSpread := by
  intro c member
  rcases List.mem_append.mp member with member | member
  · exact first c member
  · exact second c member

/-- Where a word is left after trimming, there was nothing else but blanks. -/
theorem of_trim (words : ∀ c ∈ t.trim, isWordChar c = true) : t.IsSpread := by
  obtain ⟨before, after, whole, first, last⟩ := exists_of_trim t
  rw [whole]
  exact ((of_blanks first).append (of_words words)).append (of_blanks last)

theorem isPlain_of_mark (spread : t.IsSpread) (unword : isWordChar mark = false) (ink : isBlank mark = false) :
    ∀ c ∈ t, IsPlain mark c := by
  intro c member
  rcases spread c member with word | blank
  · exact isPlain_of_isWordChar unword word
  · exact isPlain_of_isBlank ink blank

theorem isPlain (spread : t.IsSpread) : ∀ c ∈ t, IsPlain ';' c :=
  spread.isPlain_of_mark rfl rfl

end IsSpread

/-- A text that was trimmed is sealed exactly where it was before, and it is a part of what it was. -/
theorem seals_trim (t : Text) : Seals ';' none t.trim ↔ Seals ';' none t := by
  obtain ⟨before, after, whole, first, last⟩ := exists_of_trim t
  conv => rhs; rw [whole]
  rw [List.append_assoc, seals_append_of_plain (IsSpread.of_blanks first).isPlain,
    seals_append_plain (IsSpread.of_blanks last).isPlain]

theorem filledWith_trim (t : Text) : FilledWith ';' [t.trim] t := by
  obtain ⟨before, after, whole, first, last⟩ := exists_of_trim t
  have filled := ((FilledWith.of_plain (IsSpread.of_blanks first).isPlain).append (.of_part t.trim)).append
    (.of_plain (IsSpread.of_blanks last).isPlain)
  rwa [← whole] at filled

end Text

namespace Literal

variable {t : Text}

inductive IsNumeral : Char → Prop where
  | plus : IsNumeral '+'
  | minus : IsNumeral '-'
  | point : IsNumeral '.'
  | digit {c : Char} (digit : c.isDigit = true) : IsNumeral c

private theorem isNumeral_of_unsigned (digits : ∀ c ∈ unsigned t, IsNumeral c) : ∀ c ∈ t, IsNumeral c := by
  cases t with
  | nil => exact nofun
  | cons first t =>
    rw [unsigned] at digits
    split at digits
    · next signed =>
      simp only [Bool.or_eq_true, beq_iff_eq] at signed
      intro c member
      rcases List.mem_cons.mp member with rfl | member
      · rcases signed with rfl | rfl
        · exact .plus
        · exact .minus
      · exact digits c member
    · exact digits

private theorem mem_cases_of_point {c : Char} (member : c ∈ t) :
    c ∈ t.takeWhile (· != '.') ∨ c = '.' ∨ c ∈ (t.dropWhile (· != '.')).drop 1 := by
  rw [← List.takeWhile_append_dropWhile (p := (· != '.')) (l := t)] at member
  rcases List.mem_append.mp member with member | member
  · exact Or.inl member
  · cases behind : t.dropWhile (· != '.') with
    | nil =>
      rw [behind] at member
      cases member
    | cons point rest =>
      obtain ⟨rfl, -⟩ := eq_append_of_dropWhile behind
      rw [behind] at member
      rcases List.mem_cons.mp member with rfl | member
      · exact Or.inr (Or.inl rfl)
      · exact Or.inr (Or.inr member)

theorem isNumeral_of_isNumeric (numeric : isNumeric t = true) : ∀ c ∈ t, IsNumeral c := by
  apply isNumeral_of_unsigned
  intro c member
  rcases Bool.or_eq_true_iff.mp numeric with whole | pointed
  · simp only [isInt, Bool.and_eq_true, List.all_eq_true] at whole
    exact .digit (whole.2 c member)
  · simp only [isDouble, Bool.and_eq_true, List.all_eq_true] at pointed
    rcases mem_cases_of_point member with before | rfl | after
    · exact .digit (pointed.1.2 c before)
    · exact .point
    · exact .digit (pointed.2 c after)

end Literal

namespace Fragment

variable {t : Text}

/-- A fragment with a proper name has a text that holds nothing but its value. -/
theorem shape (named : isIdentifier (ofText t).name = true) :
    FilledWith ';' (ofText t).value?.toList t ∧
      (Seals ';' none t ↔ ∀ value, (ofText t).value? = some value → Seals ';' none value) := by
  unfold ofText at named ⊢
  split at named
  · have spread : t.IsSpread := .of_trim (isWordChar_of_isIdentifier named)
    exact ⟨.of_plain spread.isPlain, by simp [seals_of_plain spread.isPlain]⟩
  · next sign value rest =>
    obtain ⟨rfl, whole⟩ := eq_append_of_dropWhile rest
    have spread : IsSpread (t.takeWhile (· != '=')) := .of_trim (isWordChar_of_isIdentifier named)
    have sign : IsPlain ';' '=' := by decide
    constructor
    · have filled := (FilledWith.of_plain spread.isPlain).append (.plain sign (filledWith_trim value))
      rwa [← whole] at filled
    · conv => lhs; rw [whole]
      rw [seals_append_of_plain spread.isPlain, seals_cons_of_plain sign, ← seals_trim]
      simp

theorem trim_of_value? {value : Text} (given : (ofText t).value? = some value) : value.trim = value := by
  unfold ofText at given
  split at given <;> cases given
  exact trim_trim _

end Fragment

namespace Check
open Run

variable {methods : MethodTable} {scopes after : Scopes} {fragment : Fragment} {line t : Text}

theorem isValue_of_value {ty : Ty} {stored : Option Text} (valued : value scopes ty t = .ok stored) :
    IsValue scopes t.trim := by
  dsimp only [value] at valued
  cases found : scopes.lookup t.trim with
  | some binding => exact .bound found
  | none =>
    rw [found] at valued
    dsimp only at valued
    split at valued
    · next written => exact .literal written
    · split at valued <;> cases valued

/-- What a fragment that is accepted has a name for and a value, and what may stand for a value
behind it: nothing that could not before. -/
structure Gives (scopes : Scopes) (fragment : Fragment) (after : Scopes) : Prop where
  named : isIdentifier fragment.name = true
  valued : ∀ t, fragment.value? = some t → IsValue scopes t.trim
  later : ∀ t, IsValue after t → IsValue scopes t

private theorem isValue_of_stores {ty : Ty} {stored : Option Text} (stores : fragment.Stores ty scopes stored)
    (given : fragment.value? = some t) : IsValue scopes t.trim := by
  rw [Fragment.Stores, given] at stores
  exact isValue_of_value stores.2

theorem gives_of_declare {isFinal : Bool} {ty : Ty} (made : declare isFinal ty fragment scopes = .ok after) :
    Gives scopes fragment after := by
  rcases VariableEffects.declare_cases isFinal ty fragment scopes with
    ⟨fault, failed, -⟩ | ⟨stored, named, -, -, stores, passed⟩
  · rw [failed] at made
    cases made
  · rw [passed] at made
    cases made
    refine ⟨named, fun _ => isValue_of_stores stores, ?_⟩
    intro t later
    cases later with
    | literal written => exact .literal written
    | name identifier => exact .name identifier
    | bound found =>
      rw [Scopes.lookup, Scopes.frames, List.findSome?_cons, Scope.get?_cons] at found
      by_cases same : fragment.name = t
      · exact .name (same ▸ named)
      · rw [if_neg same] at found
        exact .bound found

theorem gives_of_assign (made : assign fragment scopes = .ok after) : Gives scopes fragment after := by
  rcases VariableEffects.assign_cases fragment scopes with
    ⟨fault, failed, -⟩ | ⟨target, stored, named, bound, -, -, stores, passed⟩
  · rw [failed] at made
    cases made
  · rw [passed] at made
    cases made
    refine ⟨named, fun _ => isValue_of_stores stores, ?_⟩
    intro t later
    cases later with
    | literal written => exact .literal written
    | name identifier => exact .name identifier
    | bound found =>
      by_cases same : t = fragment.name
      · exact .bound (same ▸ bound)
      · rw [Scopes.lookup_assign_of_ne stored same] at found
        exact .bound found

private theorem gives_of_row {each : Fragment → Scopes → Except Fault Scopes} {fragments : List Fragment}
    (gives : ∀ fragment scopes after, each fragment scopes = .ok after → Gives scopes fragment after)
    (passed : ending (fragments.forM fun fragment => step (each fragment)) scopes = (.ok (), after)) :
    ∀ fragment ∈ fragments, isIdentifier fragment.name = true ∧ ∀ t, fragment.value? = some t → IsValue scopes t.trim := by
  induction fragments generalizing scopes with
  | nil => exact nofun
  | cons fragment fragments ih =>
    obtain ⟨middle, first, rest⟩ := ending_forM_cons_eq_ok_iff.mp passed
    have here := gives fragment scopes middle (ending_step_eq_ok_iff.mp first)
    intro other member
    rcases List.mem_cons.mp member with rfl | member
    · exact ⟨here.named, here.valued⟩
    · obtain ⟨named, valued⟩ := ih rest other member
      exact ⟨named, fun t given => here.later _ (valued t given)⟩

/-- All fragments of a line that is accepted have a name of their own, and their values are values. -/
theorem gives_of_variableLine {read : VariableLine} (known : VariableLine.ofLine? line = some read)
    (changed : ending (variableLine line) scopes = (.ok (), after)) :
    ∀ fragment ∈ read.fragments,
      isIdentifier fragment.name = true ∧ ∀ t, fragment.value? = some t → IsValue scopes t.trim := by
  rw [variableLine, known] at changed
  cases read with
  | declaration isFinal ty fragments => exact gives_of_row (fun _ _ _ => gives_of_declare) changed
  | assignment fragments => exact gives_of_row (fun _ _ _ => gives_of_assign) changed

private theorem isValue_of_arguments {found : List Text} {wanted : List Parameter} (long : found.length = wanted.length)
    (passed : arguments scopes found wanted = .ok ()) : ∀ t ∈ found, IsValue scopes t.trim := by
  induction found generalizing wanted with
  | nil => exact nofun
  | cons argument found ih =>
    cases wanted with
    | nil => cases long
    | cons parameter wanted =>
      rw [arguments] at passed
      split at passed
      · cases passed
      · next valued =>
        intro t member
        rcases List.mem_cons.mp member with rfl | member
        · exact isValue_of_value valued
        · exact ih (Nat.succ.inj long) passed t member

theorem isValue_of_call {callee given : Text} (called : call methods scopes callee given = .ok ()) :
    ∀ t ∈ argumentsOf given, IsValue scopes t.trim := by
  unfold call at called
  split at called
  · cases called
  · dsimp only at called
    split at called
    · next long => exact isValue_of_arguments long called
    · cases called

end Check
end Linewise
