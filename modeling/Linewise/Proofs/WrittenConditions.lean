import Linewise.Proofs.ConditionBytes
import Linewise.Proofs.SqueezedCuts
import Linewise.Proofs.WrittenLiterals
import Mathlib.Data.List.Chain

/-! A condition is accepted where it can be written as a row of sound atoms with an operator between
any two of them, and it can be written so in one way only. The check cuts at the first operator it
meets, which need not be the only way to cut: three marks in a row can be cut in two places. But a
sound atom holds no mark, so where there is a choice, the condition is refused either way. -/

namespace Linewise
open Text

inductive Condition
  | atom (t : Text)
  | joined (t : Text) (operator : Operator) (rest : Condition)
  deriving DecidableEq, Repr

def Text.IsUncut (t : Text) : Prop :=
  t.IsChain fun c d => Check.isOperator c d = false

namespace Condition

def text : Condition → Text
  | atom t => t
  | joined t operator rest => t ++ operator.text ++ rest.text

def atoms : Condition → List Text
  | atom t => [t]
  | joined t _ rest => t :: rest.atoms

/-- Each operator is the first that can be read behind the one before it. -/
def IsLeftmost : Condition → Prop
  | atom t => t.IsUncut
  | joined t operator rest => IsUncut (t ++ [operator.mark]) ∧ rest.IsLeftmost

end Condition

def Literal.IsConstant (t : Text) : Prop :=
  Written .boolean t ∨ Written .int t ∨ Written .double t

namespace Check

inductive IsAtom (scopes : Scopes) (t : Text) : Prop where
  | constant (written : Literal.IsConstant t)
  | name {binding} (named : isIdentifier t = true) (found : scopes.lookup t = some binding)
      (set : binding.isInitialized = true) (typed : binding.ty = .boolean ∨ binding.ty = .int ∨ binding.ty = .double)

/-- What is wrong with a piece of a condition that is no sound atom. An operator with nothing before
or behind it makes the condition as a whole wrong. -/
inductive Offends (scopes : Scopes) (whole t : Text) : Fault → Prop where
  | empty (blank : t.trim = []) : Offends scopes whole t (.malformedCondition whole)
  | malformed (shown : t.trim ≠ []) (unwritten : ¬ Literal.IsConstant t.trim) (unnamed : isIdentifier t.trim = false) :
    Offends scopes whole t (.malformedCondition t.trim)
  | unknown (named : isIdentifier t.trim = true) (unbound : scopes.lookup t.trim = none) :
    Offends scopes whole t (.unknownVariable t.trim)
  | uninitialized {binding} (named : isIdentifier t.trim = true) (found : scopes.lookup t.trim = some binding)
      (unset : binding.isInitialized = false) : Offends scopes whole t (.uninitializedVariable t.trim)
  | typed {binding} (named : isIdentifier t.trim = true) (found : scopes.lookup t.trim = some binding)
      (set : binding.isInitialized = true) (other : binding.ty = .char ∨ binding.ty = .string) :
    Offends scopes whole t (.invalidConditionType t.trim binding.ty)

end Check

def Condition.IsSound (scopes : Scopes) (w : Condition) : Prop :=
  ∀ t ∈ w.atoms, Check.IsAtom scopes t.trim

namespace Literal

variable {t : Text}

theorem isConstant_iff : IsConstant t ↔ (isBoolean t || isNumeric t) = true := by
  rw [isNumeric, Bool.or_eq_true, Bool.or_eq_true, isBoolean_iff, isInt_iff, isDouble_iff]
  rfl

theorem isIdentifier_of_isConstant (written : IsConstant t) : isIdentifier t = false := by
  rcases written with boolean | int | double
  · exact isIdentifier_of_isOf (isOf_iff.mpr boolean)
  · exact isIdentifier_of_isOf (isOf_iff.mpr int)
  · exact isIdentifier_of_isOf (isOf_iff.mpr double)

end Literal

namespace Check

variable {scopes : Scopes} {whole t : Text} {fault : Fault} {pieces : List Text}

theorem isCondition_iff {ty : Ty} : ty.isCondition = true ↔ ty = .boolean ∨ ty = .int ∨ ty = .double := by
  cases ty <;> decide

theorem shown_of_isAtom (sound : IsAtom scopes t) : t ≠ [] := by
  rintro rfl
  cases sound with
  | constant written =>
    rw [Literal.isConstant_iff] at written
    exact absurd written (by decide)
  | name named _ _ _ => cases named

private theorem atom_of_named (named : isIdentifier t = true) :
    atom scopes t = match scopes.lookup t with
      | none => .error (.unknownVariable t)
      | some binding =>
        if !binding.isInitialized then .error (.uninitializedVariable t)
        else if !binding.ty.isCondition then .error (.invalidConditionType t binding.ty)
        else .ok () := by
  have unwritten : ¬ (Literal.isBoolean t || Literal.isNumeric t) = true := by
    rw [← Literal.isConstant_iff]
    intro written
    rw [Literal.isIdentifier_of_isConstant written] at named
    cases named
  rw [atom, if_neg unwritten, named]
  rfl

theorem atom_of_isAtom (sound : IsAtom scopes t) : atom scopes t = .ok () := by
  cases sound with
  | constant written => rw [atom, if_pos (Literal.isConstant_iff.mp written)]
  | name named found set typed =>
    rw [atom_of_named named, found]
    dsimp only
    rw [set, isCondition_iff.mpr typed]
    rfl

theorem atomsOf_of_isAtom (sound : IsAtom scopes t.trim) :
    atomsOf scopes whole (t :: pieces) = atomsOf scopes whole pieces := by
  have shown : ¬ t.trim.isEmpty = true := by simpa using shown_of_isAtom sound
  rw [atomsOf, if_neg shown, atom_of_isAtom sound]

theorem atomsOf_of_offends (offends : Offends scopes whole t fault) :
    atomsOf scopes whole (t :: pieces) = .error fault := by
  have later (shown : t.trim ≠ []) (failed : atom scopes t.trim = .error fault) :
      atomsOf scopes whole (t :: pieces) = .error fault := by
    rw [atomsOf, if_neg (by simpa using shown), failed]
  have named_shown (named : isIdentifier t.trim = true) : t.trim ≠ [] := by
    intro empty
    rw [empty] at named
    cases named
  cases offends with
  | empty blank => rw [atomsOf, if_pos (by simpa using blank)]
  | malformed shown unwritten unnamed =>
    apply later shown
    rw [Literal.isConstant_iff] at unwritten
    rw [atom, if_neg unwritten, unnamed]
    rfl
  | unknown named unbound =>
    apply later (named_shown named)
    rw [atom_of_named named, unbound]
  | uninitialized named found unset =>
    apply later (named_shown named)
    rw [atom_of_named named, found]
    dsimp only
    rw [unset]
    rfl
  | @typed binding named found set other =>
    have refused : binding.ty.isCondition = false := by
      rcases other with same | same <;> rw [same] <;> rfl
    apply later (named_shown named)
    rw [atom_of_named named, found]
    dsimp only
    rw [set, refused]
    rfl

theorem isAtom_or_offends (scopes : Scopes) (whole t : Text) :
    IsAtom scopes t.trim ∨ ∃ fault, Offends scopes whole t fault := by
  by_cases blank : t.trim = []
  · exact Or.inr ⟨_, .empty blank⟩
  by_cases written : Literal.IsConstant t.trim
  · exact Or.inl (.constant written)
  cases named : isIdentifier t.trim with
  | false => exact Or.inr ⟨_, .malformed blank written named⟩
  | true =>
    cases found : scopes.lookup t.trim with
    | none => exact Or.inr ⟨_, .unknown named found⟩
    | some binding =>
      cases set : binding.isInitialized with
      | false => exact Or.inr ⟨_, .uninitialized named found set⟩
      | true =>
        cases typed : binding.ty with
        | boolean => exact Or.inl (.name named found set (Or.inl typed))
        | int => exact Or.inl (.name named found set (Or.inr (Or.inl typed)))
        | double => exact Or.inl (.name named found set (Or.inr (Or.inr typed)))
        | char => exact Or.inr ⟨_, .typed named found set (Or.inl typed)⟩
        | string => exact Or.inr ⟨_, .typed named found set (Or.inr typed)⟩

theorem not_isAtom_of_offends (offends : Offends scopes whole t fault) : ¬ IsAtom scopes t.trim := by
  intro sound
  have failed : atomsOf scopes whole [t] = .error fault := atomsOf_of_offends offends
  rw [atomsOf_of_isAtom sound] at failed
  cases failed

theorem atomsOf_eq_ok_iff : atomsOf scopes whole pieces = .ok () ↔ ∀ t ∈ pieces, IsAtom scopes t.trim := by
  induction pieces with
  | nil => exact ⟨fun _ => nofun, fun _ => rfl⟩
  | cons t pieces ih =>
    rw [List.forall_mem_cons, ← ih]
    rcases isAtom_or_offends scopes whole t with sound | ⟨fault, offends⟩
    · rw [atomsOf_of_isAtom sound]
      exact ⟨fun passes => ⟨sound, passes⟩, And.right⟩
    · rw [atomsOf_of_offends offends]
      exact ⟨nofun, fun passes => absurd passes.1 (not_isAtom_of_offends offends)⟩

/-- The fault is that of the first piece that has one. -/
theorem atomsOf_eq_error_iff : atomsOf scopes whole pieces = .error fault ↔
    ∃ before t after, pieces = before ++ t :: after ∧ (∀ piece ∈ before, IsAtom scopes piece.trim) ∧
      Offends scopes whole t fault := by
  constructor
  · intro failed
    induction pieces with
    | nil => cases failed
    | cons t pieces ih =>
      rcases isAtom_or_offends scopes whole t with sound | ⟨found, offends⟩
      · rw [atomsOf_of_isAtom sound] at failed
        obtain ⟨before, other, after, rfl, passed, offends⟩ := ih failed
        exact ⟨t :: before, other, after, rfl, List.forall_mem_cons.mpr ⟨sound, passed⟩, offends⟩
      · rw [atomsOf_of_offends offends] at failed
        cases failed
        exact ⟨[], t, pieces, rfl, nofun, offends⟩
  · rintro ⟨before, t, after, rfl, passed, offends⟩
    induction before with
    | nil => exact atomsOf_of_offends offends
    | cons piece before ih =>
      obtain ⟨sound, later⟩ := List.forall_mem_cons.mp passed
      rw [List.cons_append, atomsOf_of_isAtom sound]
      exact ih later

private theorem not_mem_of_isConstant {operator : Operator} (written : Literal.IsConstant t) : operator.mark ∉ t := by
  intro member
  rw [Literal.isConstant_iff, Bool.or_eq_true, Literal.isBoolean_iff] at written
  rcases written with boolean | numeric
  · cases boolean <;> cases operator <;> exact absurd member (by decide)
  · have numeral := Literal.isNumeral_of_isNumeric numeric operator.mark member
    cases operator <;> cases numeral with | digit digit => cases digit

/-- A sound atom holds no mark, nor do the blanks around it. -/
theorem not_mem_of_isAtom (sound : IsAtom scopes t.trim) (operator : Operator) : operator.mark ∉ t := by
  intro member
  obtain ⟨before, after, whole, first, last⟩ := exists_of_trim t
  rw [whole] at member
  have ink : isBlank operator.mark = false := by cases operator <;> rfl
  have unspaced {gap : Text} (blank : ∀ c ∈ gap, isBlank c = true) : operator.mark ∉ gap := by
    intro inside
    rw [blank _ inside] at ink
    cases ink
  rw [List.append_assoc, List.mem_append, List.mem_append] at member
  rcases member with inside | inside | inside
  · exact unspaced first inside
  · cases sound with
    | constant written => exact not_mem_of_isConstant written inside
    | name named _ _ _ =>
      have word := isWordChar_of_isIdentifier named operator.mark inside
      cases operator <;> cases word
  · exact unspaced last inside

end Check

namespace Text

variable {t : Text} {c : Char} {operator : Operator}

theorem isUncut_cons_iff :
    IsUncut (c :: t) ↔ (∀ d, t.head? = some d → Check.isOperator c d = false) ∧ t.IsUncut :=
  List.isChain_cons

/-- A text without marks is no part of an operator. -/
theorem isUncut_append (unmarked : ∀ operator : Operator, operator.mark ∉ t) {rest : Text} (uncut : rest.IsUncut) :
    IsUncut (t ++ rest) := by
  induction t with
  | nil => exact uncut
  | cons c t ih =>
    refine isUncut_cons_iff.mpr ⟨?_, ih fun operator member => unmarked operator (List.mem_cons_of_mem c member)⟩
    intro d _
    rw [← Bool.not_eq_true, Operator.isOperator_iff]
    rintro ⟨operator, rfl, -⟩
    exact unmarked operator List.mem_cons_self

theorem atoms_of_isUncut (uncut : t.IsUncut) : Check.atoms t = [t] := by
  induction t with
  | nil => rfl
  | cons c t ih =>
    obtain ⟨single, later⟩ := isUncut_cons_iff.mp uncut
    cases t with
    | nil => rfl
    | cons d t =>
      rw [atoms_cons_of_single (single d rfl), ih later]
      rfl

/-- An operator is cut at where no other starts before it. -/
theorem atoms_append_operator (uncut : IsUncut (t ++ [operator.mark])) (rest : Text) :
    Check.atoms (t ++ operator.text ++ rest) = t :: Check.atoms rest := by
  induction t with
  | nil =>
    change Check.atoms (operator.mark :: operator.mark :: rest) = _
    rw [Check.atoms, if_pos (Operator.isOperator_iff.mpr ⟨operator, rfl, rfl⟩)]
  | cons c t ih =>
    obtain ⟨single, later⟩ := isUncut_cons_iff.mp uncut
    obtain ⟨d, more, next⟩ : ∃ d more, t ++ operator.text ++ rest = d :: more := by
      cases t <;> exact ⟨_, _, rfl⟩
    have apart : Check.isOperator c d = false := by
      apply single
      cases t <;> cases next <;> rfl
    rw [List.cons_append, List.cons_append, next, atoms_cons_of_single apart, ← next, ih later]
    rfl

end Text

namespace Condition

variable {w v : Condition} {t : Text}

theorem atoms_text (leftmost : w.IsLeftmost) : Check.atoms w.text = w.atoms := by
  induction w with
  | atom t => exact atoms_of_isUncut leftmost
  | joined t operator rest ih =>
    rw [text, atoms_append_operator leftmost.1, ih leftmost.2, atoms]

theorem atoms_ne_nil (w : Condition) : w.atoms ≠ [] := by
  cases w <;> exact List.cons_ne_nil _ _

/-- Whatever is left out of a condition is known from its atoms and its text. -/
theorem eq_of_atoms (same : w.atoms = v.atoms) (spelled : w.text = v.text) : w = v := by
  induction w generalizing v with
  | atom t =>
    cases v with
    | atom u => rw [(List.cons.inj same).1]
    | joined u operator rest => exact absurd (List.cons.inj same).2.symm rest.atoms_ne_nil
  | joined t operator rest ih =>
    cases v with
    | atom u => exact absurd (List.cons.inj same).2 rest.atoms_ne_nil
    | joined u other later =>
      obtain ⟨rfl, others⟩ := List.cons.inj same
      rw [text, text, List.append_assoc, List.append_assoc, List.append_cancel_left_eq] at spelled
      have marks : operator = other := by
        have first : operator.mark = other.mark := (List.cons.inj spelled).1
        cases operator <;> cases other <;> first | rfl | cases first
      subst marks
      rw [ih others (List.append_cancel_left spelled)]

theorem eq_of_isLeftmost (first : w.IsLeftmost) (second : v.IsLeftmost) (spelled : w.text = v.text) : w = v := by
  refine eq_of_atoms ?_ spelled
  rw [← atoms_text first, ← atoms_text second, spelled]

/-- Three marks are cut at the first two, but they could be cut at the last two as well. -/
example : text (joined [] .both (atom ['&'])) = text (joined ['&'] .both (atom [])) ∧
    Check.atoms (text (joined ['&'] .both (atom []))) = [[], ['&']] :=
  ⟨rfl, rfl⟩

/-- Every text is a condition as it is written, if not a sound one. -/
theorem exists_isLeftmost (t : Text) : ∃ w : Condition, w.text = t ∧ w.IsLeftmost := by
  induction t using Check.atoms.induct with
  | case1 => exact ⟨atom [], rfl, List.isChain_nil⟩
  | case2 c => exact ⟨atom [c], rfl, List.isChain_singleton c⟩
  | case3 c d rest paired ih =>
    obtain ⟨operator, rfl, rfl⟩ := Operator.isOperator_iff.mp paired
    obtain ⟨w, rfl, leftmost⟩ := ih
    exact ⟨joined [] operator w, rfl, List.isChain_singleton _, leftmost⟩
  | case4 c d rest single none ih => exact absurd none (cuts_atoms (d :: rest)).ne_nil
  | case5 c d rest single _ _ _ ih =>
    obtain ⟨w, spelled, leftmost⟩ := ih
    have apart : Check.isOperator c d = false := by simpa using single
    cases w with
    | atom t =>
      obtain rfl : t = d :: rest := spelled
      exact ⟨atom (c :: d :: rest), rfl, List.isChain_cons_cons.mpr ⟨apart, leftmost⟩⟩
    | joined t operator w =>
      refine ⟨joined (c :: t) operator w, congrArg (c :: ·) spelled, ?_, leftmost.2⟩
      refine isUncut_cons_iff.mpr ⟨?_, leftmost.1⟩
      have begins : (t ++ [operator.mark]).head? = some d := by
        cases t with
        | nil => exact congrArg some (List.cons.inj spelled).1
        | cons e t => exact congrArg some (List.cons.inj spelled).1
      intro e first
      cases begins.symm.trans first
      exact apart

/-- Sound atoms hold no marks, so the operators between them are the first that can be read. -/
theorem isLeftmost_of_isSound {scopes : Scopes} (sound : w.IsSound scopes) : w.IsLeftmost := by
  induction w with
  | atom t =>
    have unmarked := Check.not_mem_of_isAtom (sound t List.mem_cons_self)
    have uncut := isUncut_append unmarked List.isChain_nil
    rwa [List.append_nil] at uncut
  | joined t operator rest ih =>
    obtain ⟨first, others⟩ := List.forall_mem_cons.mp sound
    exact ⟨isUncut_append (Check.not_mem_of_isAtom first) (List.isChain_singleton _), ih others⟩

end Condition

namespace WrittenConditions
open Condition

/-- A condition passes where it can be written with sound atoms only, which can be done in one way. Else
the fault is that of the first piece that is no sound atom, where the operators are read as they
come. Read in bytes they come at the same places. -/
theorem condition_is_written_once (scopes : Scopes) (t : Text) :
    (Check.condition scopes t = .ok () ↔ ∃ w : Condition, w.text = t ∧ w.IsSound scopes) ∧
      (∀ w v : Condition, w.text = t → v.text = t → w.IsSound scopes → v.IsSound scopes → w = v) ∧
      ∃ first : Condition, first.text = t ∧ first.IsLeftmost ∧
        (∀ w : Condition, w.text = t → w.IsLeftmost → w = first) ∧
        List.Forall₂ (Check.IsSlice t) (Check.byteSpans t) first.atoms ∧
        ∀ fault, Check.condition scopes t = .error fault ↔
          ∃ before piece after, first.atoms = before ++ piece :: after ∧
            (∀ atom ∈ before, Check.IsAtom scopes atom.trim) ∧ Check.Offends scopes t piece fault := by
  obtain ⟨first, rfl, leftmost⟩ := exists_isLeftmost t
  have once (w : Condition) (spelled : w.text = first.text) (known : w.IsLeftmost) : w = first :=
    eq_of_isLeftmost known leftmost spelled
  have cut : Check.atoms first.text = first.atoms := atoms_text leftmost
  refine ⟨?_, ?_, first, rfl, leftmost, once, ?_, ?_⟩
  · rw [Check.condition, cut, Check.atomsOf_eq_ok_iff]
    constructor
    · intro sound
      exact ⟨first, rfl, sound⟩
    · rintro ⟨w, spelled, sound⟩
      rwa [once w spelled (isLeftmost_of_isSound sound)] at sound
  · intro w v spelled written sound other
    rw [once w spelled (isLeftmost_of_isSound sound), once v written (isLeftmost_of_isSound other)]
  · rw [← cut]
    exact Check.isSlice_byteSpans first.text
  · intro fault
    rw [Check.condition, cut]
    exact Check.atomsOf_eq_error_iff

end WrittenConditions
end Linewise
