import Linewise.Proofs.RenderedOutline

/-! Every header is either written in one of the ways there are, and then makes the method that is
written there, or it is written in none, and then the first part of it that is wrong is named. -/

namespace Linewise
open Text Statement

namespace Method

inductive FirstUnread (item : Text) : List Text → Prop where
  | here {items} (unread : ∀ parameter : Parameter, ¬ parameter.Spelled item) : FirstUnread item (item :: items)
  | later {parameter : Parameter} {first items} (read : parameter.Spelled first) (stops : FirstUnread item items) :
    FirstUnread item (first :: items)

/-- The ways not to write a header, by the fault that is found. The parameters are looked at only
behind a proper name, and one by one from the first. -/
inductive Misspelled (header : Text) : Fault → Prop where
  | head (unshaped : ∀ name inner, ¬ SpelledHead name inner header.trim) : Misspelled header (.malformedHeader header)
  | name {name inner} (shaped : SpelledHead name inner header.trim) (improper : isMethodName name = false) :
    Misspelled header (.invalidMethodName name)
  | parameter {name inner item} (shaped : SpelledHead name inner header.trim) (proper : isMethodName name = true)
      (shown : ∃ c ∈ inner, isBlank c = false) (stops : FirstUnread item (inner.splitOn ',')) :
    Misspelled header (.invalidParameter name item.trim)

variable {name t header : Text} {body items : List Text} {fault : Fault}

theorem readParameters_eq_error_iff :
    readParameters name items = .error fault ↔ ∃ item, FirstUnread item items ∧ fault = .invalidParameter name item.trim := by
  induction items with
  | nil =>
    constructor
    · exact nofun
    · rintro ⟨item, stops, -⟩
      cases stops
  | cons first items ih =>
    rw [readParameters]
    constructor
    · intro failed
      cases read : Parameter.ofText? first with
      | none =>
        rw [read] at failed
        cases failed
        refine ⟨first, .here fun parameter spelled => ?_, rfl⟩
        rw [Parameter.ofText?_eq_some_iff.mpr spelled] at read
        cases read
      | some parameter =>
        rw [read] at failed
        cases others : readParameters name items with
        | ok parameters =>
          rw [others] at failed
          cases failed
        | error other =>
          rw [others] at failed
          cases failed
          obtain ⟨item, stops, rfl⟩ := ih.mp others
          exact ⟨item, .later (Parameter.ofText?_eq_some_iff.mp read) stops, rfl⟩
    · rintro ⟨item, stops, rfl⟩
      cases stops with
      | here unread =>
        have none : Parameter.ofText? first = none :=
          Option.eq_none_iff_forall_ne_some.mpr fun parameter read =>
            unread parameter (Parameter.ofText?_eq_some_iff.mp read)
        rw [none]
      | later read stops => rw [Parameter.ofText?_eq_some_iff.mpr read, ih.mpr ⟨item, stops, rfl⟩]

theorem parametersOf_eq_error_iff : parametersOf name t = .error fault ↔
    (∃ c ∈ t, isBlank c = false) ∧ ∃ item, FirstUnread item (t.splitOn ',') ∧ fault = .invalidParameter name item.trim := by
  rw [parametersOf, ← readParameters_eq_error_iff]
  have shown : (∃ c ∈ t, isBlank c = false) ↔ ¬ t.trim.isEmpty = true := by
    rw [List.isEmpty_iff, trim_eq_nil_iff]
    simp
  rw [shown]
  split
  · next empty => simp [empty]
  · next full => simp [full]

theorem ofHeader_eq_error_iff : ofHeader header body = .error fault ↔ Misspelled header fault := by
  unfold ofHeader
  constructor
  · intro failed
    split at failed
    · next none =>
      cases failed
      refine .head fun name inner shaped => ?_
      rw [methodHead?_eq_some_iff.mpr shaped] at none
      cases none
    · next name inner found =>
      have shaped := methodHead?_eq_some_iff.mp found
      split at failed
      · next proper =>
        split at failed
        · next read =>
          cases failed
          obtain ⟨shown, item, stops, rfl⟩ := parametersOf_eq_error_iff.mp read
          exact .parameter shaped proper shown stops
        · cases failed
      · next improper =>
        cases failed
        exact .name shaped (by simpa using improper)
  · intro misspelled
    cases misspelled with
    | head unshaped =>
      have none : methodHead? header = none :=
        Option.eq_none_iff_forall_ne_some.mpr fun (name, inner) found =>
          unshaped name inner (methodHead?_eq_some_iff.mp found)
      rw [none]
    | name shaped improper =>
      rw [methodHead?_eq_some_iff.mpr shaped]
      simp [improper]
    | @parameter name inner item shaped proper shown stops =>
      have read : parametersOf name inner = .error (.invalidParameter name item.trim) :=
        parametersOf_eq_error_iff.mpr ⟨shown, item, stops, rfl⟩
      rw [methodHead?_eq_some_iff.mpr shaped]
      simp [proper, read]

/-- A stray comma leaves an empty item, and that is the first one which is no parameter. -/
example : ofHeader "void f(int a, ,b) \x7b".toList [] = .error (.invalidParameter "f".toList []) := by
  decide

end Method

namespace WrittenHeaders

/-- A header makes a method where it is written in one of the ways there are, and the method has the
name and the parameters that are written there and the body that is given. Any other header ends at
the fault that says what of it is written wrong. So each method with a proper name and properly
named parameters can be written out in all these ways, and is made again of each of them. -/
theorem headers_are_read_exactly :
    (∀ header body method, Method.ofHeader header body = .ok method ↔
      Method.SpelledHeader method.name method.parameters header.trim ∧ method.body = body) ∧
    (∀ header body fault, Method.ofHeader header body = .error fault ↔ Method.Misspelled header fault) ∧
    ∀ method : Method, isMethodName method.name = true →
      (∀ parameter ∈ method.parameters, isIdentifier parameter.name = true) →
        Method.SpelledHeader method.name method.parameters method.header ∧
        ∀ before header after, (∀ c ∈ before, isBlank c = true) → (∀ c ∈ after, isBlank c = true) →
          Method.SpelledHeader method.name method.parameters header →
            Method.ofHeader (before ++ header ++ after) method.body = .ok method := by
  refine ⟨fun _ _ _ => Method.ofHeader_iff_spelled, fun _ _ _ => Method.ofHeader_eq_error_iff, ?_⟩
  intro method proper named
  refine ⟨Method.spelledHeader_header proper named, ?_⟩
  intro before header after first last spelled
  rw [Method.ofHeader_iff_spelled, trim_between_blanks first last, spelled.trim]
  exact ⟨spelled, rfl⟩

end WrittenHeaders
end Linewise
