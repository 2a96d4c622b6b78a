import Linewise.Proofs.CheckComparison
import Linewise.Proofs.RunAgreement
import Linewise.Proofs.SqueezedStatements
import Linewise.Proofs.StoredLiterals
import Linewise.Proofs.StoredValues
import Mathlib.Data.List.TakeWhile

/-! Squeezing a value changes what it is in one case only. Some blanks in single quotes are no
character, as there are too many of them, and become one when a single space is left. Names, numbers
and conditions hold no blanks at all, and strings may hold as many as they like. -/

namespace Linewise
open Text

/-- Single quotes around more than one blank, and around nothing else. -/
def Text.IsStretched (t : Text) : Prop :=
  ∃ gap : Text, 2 ≤ gap.length ∧ (∀ c ∈ gap, isBlank c = true) ∧ t = singleQuote :: gap ++ [singleQuote]

namespace Literal

variable {t : Text}

private theorem ink_of_isNumeral {c : Char} (numeral : IsNumeral c) : isBlank c = false := by
  cases numeral with
  | plus | minus | point => rfl
  | digit digit =>
    apply isBlank_of_isWordChar
    simp [isWordChar, Char.isAlphanum, digit]

theorem ink_of_isNumeric (numeric : isNumeric t = true) : ∀ c ∈ t, isBlank c = false :=
  fun c member => ink_of_isNumeral (isNumeral_of_isNumeric numeric c member)

theorem ink_of_isBoolean (written : isBoolean t = true) : ∀ c ∈ t, isBlank c = false := by
  simp only [isBoolean, Bool.or_eq_true, beq_iff_eq] at written
  rcases written with rfl | rfl <;> exact ink_of_isRawName rfl

theorem isNumeric_squeeze (t : Text) : isNumeric t.squeeze = isNumeric t :=
  squeeze_congr (fun _ => ink_of_isNumeric) t

theorem isBoolean_squeeze (t : Text) : isBoolean t.squeeze = isBoolean t :=
  squeeze_congr (fun _ => ink_of_isBoolean) t

theorem isString_squeeze (t : Text) : isString t.squeeze = isString t := by
  cases t with
  | nil => rfl
  | cons c t =>
    cases blank : isBlank c with
    | true =>
      have unquoted (d : Char) (gap : isBlank d = true) : (d == doubleQuote) = false := by
        rw [beq_eq_false_iff_ne]
        rintro rfl
        cases gap
      rw [squeeze_blank blank, isString, isString, unquoted ' ' isBlank_space, unquoted c blank]
      rfl
    | false =>
      have ink : isBlank doubleQuote = false := rfl
      have ends : ((squeeze t).getLast? == some doubleQuote) = (t.getLast? == some doubleQuote) := by
        rw [Bool.eq_iff_iff, beq_iff_eq, beq_iff_eq]
        constructor
        · exact getLast?_of_squeeze ink
        · intro last
          obtain ⟨front, rfl⟩ := List.getLast?_eq_some_iff.mp last
          rw [squeeze_append_ink ink]
          exact List.getLast?_concat
      rw [squeeze_ink blank, isString, isString, ends]

theorem isChar_iff : isChar t = true ↔ ∃ c, t = [singleQuote, c, singleQuote] := by
  constructor
  · intro written
    unfold isChar at written
    split at written
    · simp only [Bool.and_eq_true, beq_iff_eq] at written
      obtain ⟨rfl, rfl⟩ := written
      exact ⟨_, rfl⟩
    · cases written
  · rintro ⟨c, rfl⟩
    rfl

private theorem cases_of_squeeze_singleton {c : Char} (single : t.squeeze = [c]) :
    t = [c] ∨ t ≠ [] ∧ ∀ d ∈ t, isBlank d = true := by
  cases t with
  | nil => cases single
  | cons e t =>
    cases blank : isBlank e with
    | false =>
      rw [squeeze_ink blank] at single
      obtain ⟨rfl, rest⟩ := List.cons.inj single
      rw [squeeze_eq_nil_iff.mp rest]
      exact Or.inl rfl
    | true =>
      rw [squeeze_blank blank] at single
      have none := squeeze_eq_nil_iff.mp (List.cons.inj single).2
      refine Or.inr ⟨List.cons_ne_nil e t, ?_⟩
      intro d member
      rcases List.mem_cons.mp member with rfl | member
      · exact blank
      · exact List.dropWhile_eq_nil_iff.mp none d member

theorem isChar_or_isStretched (written : isChar t.squeeze = true) : isChar t = true ∨ t.IsStretched := by
  have ink : isBlank singleQuote = false := rfl
  obtain ⟨c, squeezed⟩ := isChar_iff.mp written
  cases t with
  | nil => cases squeezed
  | cons opening t =>
    cases blank : isBlank opening with
    | true =>
      rw [squeeze_blank blank] at squeezed
      cases (List.cons.inj squeezed).1
    | false =>
      rw [squeeze_ink blank] at squeezed
      obtain ⟨rfl, rest⟩ := List.cons.inj squeezed
      have ended : beforeLast? singleQuote (squeeze t) = some [c] := beforeLast?_eq_some_iff.mpr rest
      rw [beforeLast?_squeeze ink] at ended
      obtain ⟨inner, before, single⟩ := Option.map_eq_some_iff.mp ended
      rw [beforeLast?_eq_some_iff.mp before]
      rcases cases_of_squeeze_singleton single with rfl | ⟨some?, gap⟩
      · exact Or.inl rfl
      · match inner with
        | [d] => exact Or.inl rfl
        | d :: e :: inner => exact Or.inr ⟨d :: e :: inner, by simp, gap, rfl⟩

theorem isChar_squeeze_of_isChar (written : isChar t = true) : isChar t.squeeze = true := by
  obtain ⟨c, rfl⟩ := isChar_iff.mp written
  have ink : isBlank singleQuote = false := rfl
  have last : squeeze [singleQuote] = [singleQuote] := squeeze_ink ink []
  cases blank : isBlank c with
  | false => rw [squeeze_ink ink, squeeze_ink blank, last]; rfl
  | true => rw [squeeze_ink ink, squeeze_blank blank, trimLeft_ink ink, last]; rfl

/-- Nothing else is written so. -/
theorem isOf_of_isStretched (stretched : t.IsStretched) (ty : Ty) : isOf ty t = false := by
  obtain ⟨gap, long, blank, rfl⟩ := stretched
  obtain ⟨c, d, gap, rfl⟩ : ∃ c d rest, gap = c :: d :: rest := by
    match gap with
    | [] => cases long
    | [c] => exact absurd long (by simp)
    | c :: d :: gap => exact ⟨c, d, gap, rfl⟩
  have spaced : isBlank c = true := blank c (by simp)
  rw [← Bool.not_eq_true]
  intro written
  cases ty with
  | int | double =>
    have inked := ink_of_isNumeric (isNumeric_of_isOf rfl written) c (by simp)
    rw [spaced] at inked
    cases inked
  | boolean =>
    have inked := ink_of_isBoolean written c (by simp)
    rw [spaced] at inked
    cases inked
  | char =>
    obtain ⟨e, same⟩ := isChar_iff.mp written
    simp at same
  | string => simp [isOf, isString, singleQuote, doubleQuote] at written

theorem isOf_squeeze (whole : ¬ t.IsStretched) (ty : Ty) : isOf ty t.squeeze = isOf ty t := by
  cases ty with
  | int | double => exact squeeze_congr (fun _ written => ink_of_isNumeric (isNumeric_of_isOf rfl written)) t
  | boolean => exact isBoolean_squeeze t
  | string => exact isString_squeeze t
  | char =>
    rw [Bool.eq_iff_iff]
    constructor
    · intro written
      exact (isChar_or_isStretched written).resolve_right whole
    · exact isChar_squeeze_of_isChar

end Literal

theorem isIdentifier_of_isStretched {t : Text} (stretched : t.IsStretched) : isIdentifier t = false := by
  obtain ⟨gap, long, blank, rfl⟩ := stretched
  rw [← Bool.not_eq_true]
  intro named
  have word := isWordChar_of_isIdentifier named singleQuote (by simp)
  cases word

/-- Scopes that differ in values only, and bind no name that is none. -/
structure Scopes.Alike (first second : Scopes) : Prop where
  compares : first.Compares Binding.SameButValue second
  named : first.BindsIdentifiers
  known : second.BindsIdentifiers

namespace Scopes

variable {first second after last scopes : Scopes} {binding : Binding}

theorem BindsIdentifiers.unbound (named : scopes.BindsIdentifiers) {t : Text} (unnamed : isIdentifier t = false) :
    scopes.lookup t = none := by
  cases found : scopes.lookup t with
  | none => rfl
  | some binding =>
    rw [named t binding found] at unnamed
    cases unnamed

theorem BindsIdentifiers.declared (named : scopes.BindsIdentifiers) (identifier : isIdentifier binding.name = true) :
    BindsIdentifiers { scopes with current := binding :: scopes.current } := by
  intro name found bound
  rw [lookup, frames, List.findSome?_cons, Scope.get?_cons] at bound
  by_cases same : binding.name = name
  · exact same ▸ identifier
  · rw [if_neg same] at bound
    exact named name found bound

theorem BindsIdentifiers.close (named : scopes.BindsIdentifiers) (closed : scopes.close = .ok after) :
    after.BindsIdentifiers := by
  intro name binding found
  obtain ⟨scope, frames⟩ := close_eq_ok_iff.mp closed
  cases looked : scopes.lookup name with
  | some other => exact named name other looked
  | none =>
    rw [lookup, frames, List.findSome?_cons] at looked
    split at looked
    · cases looked
    · rw [lookup, looked] at found
      cases found

namespace Alike

theorem lookup (alike : first.Alike second) (t : Text) :
    Option.Rel Binding.SameButValue (first.lookup t) (second.lookup t.squeeze) := by
  cases identifier : isIdentifier t with
  | true =>
    rw [squeeze_of_isIdentifier identifier]
    exact alike.compares.lookup t
  | false =>
    rw [alike.named.unbound identifier, alike.known.unbound (by rwa [isIdentifier_squeeze])]
    exact .none

theorem declared (alike : first.Alike second) {other : Binding} (same : binding.SameButValue other)
    (identifier : isIdentifier binding.name = true) :
    Alike { first with current := binding :: first.current } { second with current := other :: second.current } := by
  have spelled : other.name = binding.name := same.name
  exact ⟨alike.compares.declared spelled same, alike.named.declared identifier, alike.known.declared (spelled ▸ identifier)⟩

theorem declare (alike : first.Alike second) {other : Binding} (same : binding.SameButValue other)
    (identifier : isIdentifier binding.name = true) : Agrees True Alike (first.declare binding) (second.declare other) := by
  rw [Scopes.declare, Scopes.declare, same.name, alike.compares.contains_current]
  split
  · exact .fault
  · exact .ok trivial (alike.declared same identifier)

theorem assign (alike : first.Alike second) (name : Text) (value other : Option Text) :
    Alike (first.assign name value) (second.assign name other) :=
  ⟨alike.compares.assign StoredValues.sameButValue_overlooks name value other, alike.named.assign name value,
    alike.known.assign name other⟩

theorem opened (alike : first.Alike second) : first.opened.Alike second.opened :=
  ⟨alike.compares.opened, alike.named, alike.known⟩

theorem close (alike : first.Alike second) : Agrees True Alike first.close second.close := by
  have answered : Answers True _ first.close second.close := alike.compares.close
  cases closed : first.close with
  | error fault =>
    cases closing : second.close with
    | error other => exact .fault
    | ok last =>
      rw [closed, closing] at answered
      cases answered with
      | free lax => exact absurd trivial lax
  | ok after =>
    cases closing : second.close with
    | error fault =>
      rw [closed, closing] at answered
      cases answered
    | ok last =>
      rw [closed, closing] at answered
      cases answered with
      | ok compares => exact .ok trivial ⟨compares, alike.named.close closed, alike.known.close closing⟩

end Alike
end Scopes
end Linewise
