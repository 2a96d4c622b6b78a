import Linewise.Proofs.SqueezedValues
import Mathlib.Data.List.TakeWhile

/-! How the literals of each type are written. No two types share a literal, but for the numbers: an
integer can be read as a double too. No literal can be read as a name either, so it does not matter
that a value is looked up before it is read. -/

namespace Linewise
open Text

namespace Literal

inductive IsSign : Text → Prop where
  | none : IsSign []
  | plus : IsSign ['+']
  | minus : IsSign ['-']

def IsDigits (t : Text) : Prop :=
  ∀ c ∈ t, c.isDigit = true

inductive Written : Ty → Text → Prop where
  | int {sign digits} (signed : IsSign sign) (some? : digits ≠ []) (whole : IsDigits digits) :
    Written .int (sign ++ digits)
  | integral {sign digits} (signed : IsSign sign) (some? : digits ≠ []) (whole : IsDigits digits) :
    Written .double (sign ++ digits)
  | pointed {sign digits decimals} (signed : IsSign sign) (some? : digits ≠ []) (whole : IsDigits digits)
      (fraction : IsDigits decimals) : Written .double (sign ++ (digits ++ '.' :: decimals))
  | fractional {sign decimals} (signed : IsSign sign) (some? : decimals ≠ []) (fraction : IsDigits decimals) :
    Written .double (sign ++ '.' :: decimals)
  | truth : Written .boolean Keyword.truth
  | falsity : Written .boolean Keyword.falsity
  | char (c : Char) : Written .char [singleQuote, c, singleQuote]
  | string (inner : Text) : Written .string (doubleQuote :: (inner ++ [doubleQuote]))

variable {t sign digits decimals : Text} {c : Char} {first second ty : Ty}

theorem exists_sign (t : Text) : ∃ sign, IsSign sign ∧ t = sign ++ unsigned t := by
  cases t with
  | nil => exact ⟨[], .none, rfl⟩
  | cons c t =>
    by_cases signed : (c == '+' || c == '-') = true
    · rw [unsigned, if_pos signed]
      simp only [Bool.or_eq_true, beq_iff_eq] at signed
      rcases signed with rfl | rfl
      · exact ⟨['+'], .plus, rfl⟩
      · exact ⟨['-'], .minus, rfl⟩
    · rw [unsigned, if_neg signed]
      exact ⟨[], .none, rfl⟩

/-- Only one sign is left out, so it has to be told from what follows it. -/
theorem unsigned_append (signed : IsSign sign) (bare : unsigned t = t) : unsigned (sign ++ t) = t := by
  cases signed with
  | none => exact bare
  | plus | minus => rfl

theorem unsigned_of_isDigit (digit : c.isDigit = true) : unsigned (c :: t) = c :: t := by
  apply if_neg
  simp only [Bool.or_eq_true, beq_iff_eq]
  rintro (rfl | rfl) <;> cases digit

theorem unsigned_of_isDigits (some? : digits ≠ []) (whole : IsDigits digits) : unsigned digits = digits := by
  cases digits with
  | nil => exact absurd rfl some?
  | cons c digits => exact unsigned_of_isDigit (whole c List.mem_cons_self)

/-- A number is split at its first point, and no digit is one. -/
theorem ne_point_of_isDigits (whole : IsDigits digits) : ∀ c ∈ digits, (c != '.') = true := by
  intro c member
  rw [bne_iff_ne]
  rintro rfl
  cases whole '.' member

private theorem isInt_eq_true_iff : isInt t = true ↔ unsigned t ≠ [] ∧ IsDigits (unsigned t) := by
  simp [isInt, IsDigits]

theorem isInt_iff : isInt t = true ↔ Written .int t := by
  rw [isInt_eq_true_iff]
  constructor
  · rintro ⟨some?, whole⟩
    obtain ⟨sign, signed, spelled⟩ := exists_sign t
    rw [spelled]
    exact .int signed some? whole
  · intro written
    cases written with
    | @int sign digits signed some? whole =>
      rw [unsigned_append signed (unsigned_of_isDigits some? whole)]
      exact ⟨some?, whole⟩

private theorem isDouble_eq_true_iff {before behind : Text} (left : (unsigned t).takeWhile (· != '.') = before)
    (right : ((unsigned t).dropWhile (· != '.')).drop 1 = behind) :
    isDouble t = true ↔ (before ≠ [] ∨ behind ≠ []) ∧ IsDigits before ∧ IsDigits behind := by
  simp [isDouble, left, right, IsDigits, and_assoc]

private theorem isDouble_of_point (signed : IsSign sign) (some? : digits ≠ [] ∨ decimals ≠ []) (whole : IsDigits digits)
    (fraction : IsDigits decimals) : isDouble (sign ++ (digits ++ '.' :: decimals)) = true := by
  have bare : unsigned (digits ++ '.' :: decimals) = digits ++ '.' :: decimals := by
    cases digits with
    | nil => rfl
    | cons c digits => exact unsigned_of_isDigit (whole c List.mem_cons_self)
  have plain := ne_point_of_isDigits whole
  have left : (unsigned (sign ++ (digits ++ '.' :: decimals))).takeWhile (· != '.') = digits := by
    rw [unsigned_append signed bare, List.takeWhile_append_of_pos plain]
    exact List.append_nil digits
  have right : ((unsigned (sign ++ (digits ++ '.' :: decimals))).dropWhile (· != '.')).drop 1 = decimals := by
    rw [unsigned_append signed bare, List.dropWhile_append_of_pos plain]
    rfl
  exact (isDouble_eq_true_iff left right).mpr ⟨some?, whole, fraction⟩

theorem isDouble_iff : isDouble t = true ↔ Written .double t := by
  constructor
  · intro read
    obtain ⟨some?, whole, fraction⟩ := (isDouble_eq_true_iff rfl rfl).mp read
    obtain ⟨sign, signed, spelled⟩ := exists_sign t
    rw [spelled, ← List.takeWhile_append_dropWhile (p := (· != '.')) (l := unsigned t)]
    cases behind : (unsigned t).dropWhile (· != '.') with
    | nil =>
      rw [behind] at some?
      rw [List.append_nil]
      exact .integral signed (some?.resolve_right (absurd rfl)) whole
    | cons point decimals =>
      obtain ⟨rfl, -⟩ := eq_append_of_dropWhile behind
      rw [behind] at some? fraction
      by_cases bare : (unsigned t).takeWhile (· != '.') = []
      · rw [bare] at some? ⊢
        exact .fractional signed (some?.resolve_left (absurd rfl)) fraction
      · exact .pointed signed bare whole fraction
  · intro written
    cases written with
    | @integral sign digits signed some? whole =>
      have bare := unsigned_append signed (unsigned_of_isDigits some? whole)
      have plain := ne_point_of_isDigits whole
      have left : (unsigned (sign ++ digits)).takeWhile (· != '.') = digits := by
        rw [bare]
        exact List.takeWhile_eq_self_iff.mpr plain
      have right : ((unsigned (sign ++ digits)).dropWhile (· != '.')).drop 1 = [] := by
        rw [bare, List.dropWhile_eq_nil_iff.mpr plain, List.drop_nil]
      exact (isDouble_eq_true_iff left right).mpr ⟨Or.inl some?, whole, nofun⟩
    | pointed signed some? whole fraction => exact isDouble_of_point signed (Or.inl some?) whole fraction
    | fractional signed some? fraction =>
      have none : IsDigits [] := nofun
      have parts := isDouble_of_point signed (Or.inr some?) none fraction
      exact parts

theorem isBoolean_iff : isBoolean t = true ↔ Written .boolean t := by
  simp only [isBoolean, Bool.or_eq_true, beq_iff_eq]
  constructor
  · rintro (rfl | rfl)
    · exact .truth
    · exact .falsity
  · intro written
    cases written with
    | truth => exact Or.inl rfl
    | falsity => exact Or.inr rfl

theorem isString_iff : isString t = true ↔ Written .string t := by
  constructor
  · intro read
    cases t with
    | nil => cases read
    | cons opening t =>
      simp only [isString, Bool.and_eq_true, beq_iff_eq] at read
      obtain ⟨rfl, last⟩ := read
      obtain ⟨inner, rfl⟩ := List.getLast?_eq_some_iff.mp last
      exact .string inner
  · intro written
    cases written with
    | string inner => simp [isString]

theorem isOf_iff : isOf ty t = true ↔ Written ty t := by
  cases ty with
  | int => exact isInt_iff
  | double => exact isDouble_iff
  | boolean => exact isBoolean_iff
  | string => exact isString_iff
  | char =>
    refine isChar_iff.trans ⟨?_, fun written => ?_⟩
    · rintro ⟨c, rfl⟩
      exact .char c
    · cases written with
      | char c => exact ⟨c, rfl⟩

instance (ty : Ty) (t : Text) : Decidable (Written ty t) :=
  decidable_of_iff _ isOf_iff

theorem written_double_of_int (written : Written .int t) : Written .double t := by
  cases written with
  | int signed some? whole => exact .integral signed some? whole

/-- The type of the literals that start so, an integer being taken for a double. -/
def opened (c : Char) : Ty :=
  if c = 't' ∨ c = 'f' then .boolean
  else if c = singleQuote then .char
  else if c = doubleQuote then .string
  else .double

def broad : Ty → Ty
  | .int => .double
  | ty => ty

private theorem opened_of_isNumeral (numeral : IsNumeral c) : opened c = .double := by
  cases numeral with
  | plus | minus | point => rfl
  | digit digit =>
    have apart (other : Char) (letter : other.isDigit = false) : c ≠ other := by
      rintro rfl
      rw [letter] at digit
      cases digit
    simp only [opened, apart 't' rfl, apart 'f' rfl, apart singleQuote rfl, apart doubleQuote rfl, or_self, if_false]

theorem opened_of_written (written : Written ty t) : t.head?.map opened = some (broad ty) := by
  have number (numeric : isNumeric t = true) : t.head?.map opened = some .double := by
    cases t with
    | nil => cases numeric
    | cons c t => exact congrArg some (opened_of_isNumeral (isNumeral_of_isNumeric numeric c List.mem_cons_self))
  cases ty with
  | int => exact number (isNumeric_of_isOf rfl (isOf_iff.mpr written))
  | double => exact number (isNumeric_of_isOf rfl (isOf_iff.mpr written))
  | boolean => cases written <;> rfl
  | char => cases written; rfl
  | string => cases written; rfl

/-- A literal of two types is a number. -/
theorem written_twice (one : Written first t) (other : Written second t) :
    first = second ∨ first.isNumeric = true ∧ second.isNumeric = true := by
  have same : broad first = broad second := by
    apply Option.some.inj
    rw [← opened_of_written one, opened_of_written other]
  revert same
  cases first <;> cases second <;> decide

end Literal

namespace Check

/-- What comes of a text that was trimmed, where a value of the type is wanted. -/
inductive Evaluates (scopes : Scopes) (target : Ty) (t : Text) : Except Fault (Option Text) → Prop where
  | held {source} (found : scopes.lookup t = some source) (stands : source.ty.standsFor target = true)
      (set : source.isInitialized = true) : Evaluates scopes target t (.ok source.value)
  | literal (written : Literal.Written target t) : Evaluates scopes target t (.ok (some t))
  | mismatched {source} (found : scopes.lookup t = some source) (apart : source.ty.standsFor target = false) :
    Evaluates scopes target t (.error (.typeMismatch t source.ty target))
  | uninitialized {source} (found : scopes.lookup t = some source) (stands : source.ty.standsFor target = true)
      (unset : source.isInitialized = false) : Evaluates scopes target t (.error (.uninitializedVariable t))
  | unknown (named : isIdentifier t = true) (unbound : scopes.lookup t = none) :
    Evaluates scopes target t (.error (.unknownVariable t))
  | invalid (unnamed : isIdentifier t = false) (unwritten : ¬ Literal.Written target t) :
    Evaluates scopes target t (.error (.invalidLiteral t target))

variable {scopes : Scopes} {target : Ty} {t : Text} {answer : Except Fault (Option Text)}

theorem evaluates_value (scopes : Scopes) (target : Ty) (t : Text) :
    Evaluates scopes target t.trim (value scopes target t) := by
  dsimp only [value]
  cases found : scopes.lookup t.trim with
  | some source =>
    dsimp only
    split
    · next apart => exact .mismatched found (by simpa using apart)
    · next stands =>
      split
      · next unset => exact .uninitialized found (by simpa using stands) (by simpa using unset)
      · next set => exact .held found (by simpa using stands) (by simpa using set)
  | none =>
    dsimp only
    split
    · next written => exact .literal (Literal.isOf_iff.mp written)
    · next unwritten =>
      split
      · next named => exact .unknown named found
      · next unnamed => exact .invalid (by simpa using unnamed) (by rwa [Literal.isOf_iff] at unwritten)

theorem value_of_evaluates (named : scopes.BindsIdentifiers) (evaluates : Evaluates scopes target t.trim answer) :
    value scopes target t = answer := by
  dsimp only [value]
  cases evaluates with
  | held found stands set => simp [found, stands, set]
  | mismatched found apart => simp [found, apart]
  | uninitialized found stands unset => simp [found, stands, unset]
  | literal written =>
    have read := Literal.isOf_iff.mpr written
    rw [named.unbound (Literal.isIdentifier_of_isOf read)]
    exact if_pos read
  | unknown identifier unbound =>
    have unread : ¬ Literal.isOf target t.trim = true := by
      intro read
      rw [Literal.isIdentifier_of_isOf read] at identifier
      cases identifier
    rw [unbound]
    dsimp only
    rw [if_neg unread, if_pos identifier]
  | invalid unnamed unwritten =>
    rw [← Literal.isOf_iff] at unwritten
    rw [named.unbound unnamed]
    dsimp only
    rw [if_neg unwritten, unnamed]
    rfl

end Check

namespace WrittenLiterals
open Literal Check

/-- A value is accepted where it names a variable that holds one of a fitting type, or where it is a
literal of the very type. It is never both, so what comes of it, a text to keep or a fault, can be
told from what it is. -/
theorem values_are_read_in_one_way :
    (∀ ty t, isOf ty t = true ↔ Written ty t) ∧ (∀ t, Written .int t → Written .double t) ∧
      (∀ first second t, Written first t → Written second t →
        first = second ∨ first.isNumeric = true ∧ second.isNumeric = true) ∧
      (∀ ty t, Written ty t → isIdentifier t = false) ∧
      ∀ scopes : Scopes, scopes.BindsIdentifiers → ∀ target t,
        ((∃ stored, value scopes target t = .ok stored) ↔
          (∃ source, scopes.lookup t.trim = some source ∧ source.isInitialized = true ∧
            source.ty.standsFor target = true) ∨ Written target t.trim) ∧
        (∀ source ty, scopes.lookup t.trim = some source → ¬ Written ty t.trim) ∧
        ∀ answer, value scopes target t = answer ↔ Evaluates scopes target t.trim answer := by
  have unnamed (ty : Ty) (t : Text) (written : Written ty t) : isIdentifier t = false :=
    isIdentifier_of_isOf (isOf_iff.mpr written)
  refine ⟨fun _ _ => isOf_iff, fun _ => written_double_of_int, fun _ _ _ => written_twice, unnamed, ?_⟩
  intro scopes named target t
  have answered (answer : Except Fault (Option Text)) :
      value scopes target t = answer ↔ Evaluates scopes target t.trim answer := by
    constructor
    · rintro rfl
      exact evaluates_value scopes target t
    · exact value_of_evaluates named
  refine ⟨?_, ?_, answered⟩
  · constructor
    · rintro ⟨stored, passed⟩
      cases (answered _).mp passed with
      | held found stands set => exact Or.inl ⟨_, found, set, stands⟩
      | literal written => exact Or.inr written
    · rintro (⟨source, found, set, stands⟩ | written)
      · exact ⟨source.value, (answered _).mpr (.held found stands set)⟩
      · exact ⟨some t.trim, (answered _).mpr (.literal written)⟩
  · intro source ty found written
    have identifier := named t.trim source found
    rw [unnamed ty t.trim written] at identifier
    cases identifier

def measured : Scopes :=
  ⟨[⟨"a".toList, .int, false, true, some "-7".toList⟩], [[⟨"b".toList, .double, false, false, none⟩]]⟩

/-- A double takes the integer and hands on its text, and it takes a number with no digits behind
the point. The number without a value is not taken. -/
theorem measured_is_read_in_one_way :
    measured.BindsIdentifiers ∧ Check.value measured .double " a ".toList = .ok (some "-7".toList) ∧
      ¬ Written .double "a".toList ∧ Check.value measured .double "+1. ".toList = .ok (some "+1.".toList) ∧
      Check.value measured .int "b".toList = .error (.uninitializedVariable "b".toList) := by
  have named : measured.BindsIdentifiers := Scopes.bindsIdentifiers_of_mem (by decide)
  have first : measured.lookup "a".toList = some ⟨"a".toList, .int, false, true, some "-7".toList⟩ := rfl
  have second : measured.lookup "b".toList = some ⟨"b".toList, .double, false, false, none⟩ := rfl
  obtain ⟨-, -, -, -, read⟩ := values_are_read_in_one_way
  have answered (target : Ty) (t : Text) := (read measured named target t).2
  refine ⟨named, ?_, ?_, ?_, ?_⟩
  · exact ((answered .double " a ".toList).2 _).mpr (.held first rfl rfl)
  · exact (answered .double "a".toList).1 _ .double first
  · exact ((answered .double "+1. ".toList).2 _).mpr (.literal (by decide))
  · exact ((answered .int "b".toList).2 _).mpr (.uninitialized second rfl rfl)

end WrittenLiterals
end Linewise
