import Linewise.Check.Program
import Linewise.Proofs.SqueezedValues

/-! The checks of a line and of the squeezed line agree, from scopes that bind the same names. Only
a value that is stretched keeps the line from being accepted as it stands, and it may pass once
it is squeezed. -/

namespace Linewise
open Text

def Check.IsWhole (line : Text) : Prop :=
  ∀ t ∈ Check.values line, ¬ t.IsStretched

def MethodTable.collapse (table : MethodTable) : MethodTable :=
  { table with methods := table.methods.map Method.collapse }

theorem MethodTable.get?_collapse (table : MethodTable) (name : Text) :
    table.collapse.get? name = (table.get? name).map Method.collapse := by
  have same : table.collapse.position? name = table.position? name := rfl
  rw [get?, get?, same]
  cases table.position? name with
  | none => rfl
  | some position => exact List.getElem?_map ..

namespace SqueezedChecks
open Run

variable {first second : Scopes}

theorem value_agrees (alike : first.Alike second) (ty : Ty) (t : Text) :
    Agrees (¬ t.trim.IsStretched) (fun _ _ => True) (Check.value first ty t) (Check.value second ty t.squeeze) := by
  dsimp only [Check.value]
  rw [trim_squeeze]
  by_cases stretched : t.trim.IsStretched
  · have unnamed := isIdentifier_of_isStretched stretched
    rw [alike.named.unbound unnamed, Literal.isOf_of_isStretched stretched, unnamed]
    exact .unsound fun whole => whole stretched
  · have looked := alike.lookup t.trim
    generalize first.lookup t.trim = source, second.lookup t.trim.squeeze = found at looked
    cases looked with
    | none =>
      dsimp only
      rw [Literal.isOf_squeeze stretched, isIdentifier_squeeze]
      split
      · exact .ok stretched trivial
      · split <;> exact .fault
    | some same =>
      dsimp only
      rw [same.ty, same.isInitialized]
      split
      · exact .fault
      · split
        · exact .fault
        · exact .ok stretched trivial

def WholeValue (fragment : Fragment) : Prop :=
  ∀ t, fragment.value? = some t → ¬ t.trim.IsStretched

private theorem wholeValue_iff {fragment : Fragment} {t : Text} (given : fragment.value? = some t) :
    WholeValue fragment ↔ ¬ t.trim.IsStretched := by
  simp [WholeValue, given]

private theorem squeeze_cons (c : Char) (t : Text) : ∃ d rest, squeeze (c :: t) = d :: rest := by
  apply List.exists_cons_of_ne_nil
  rw [Ne, squeeze_eq_nil_iff]
  exact List.cons_ne_nil c t

theorem declare_agrees (alike : first.Alike second) (isFinal : Bool) (ty : Ty) (fragment : Fragment) :
    Agrees (WholeValue fragment) Scopes.Alike (Check.declare isFinal ty fragment first)
      (Check.declare isFinal ty fragment.squeeze second) := by
  dsimp only [Check.declare, Fragment.squeeze]
  rw [isIdentifier_squeeze]
  cases identifier : isIdentifier fragment.name with
  | false => exact .fault
  | true =>
    rw [squeeze_of_isIdentifier identifier, alike.compares.contains_current]
    simp only [Bool.not_true, Bool.false_eq_true, if_false]
    split
    · exact .fault
    · cases given : fragment.value? with
      | none =>
        have whole : WholeValue fragment := by simp [WholeValue, given]
        dsimp only [Option.map_none]
        split
        · exact .fault
        · exact .congr (alike.declare ⟨rfl, rfl, rfl, rfl⟩ identifier) (iff_of_true trivial whole)
      | some t =>
        cases t with
        | nil => exact .fault
        | cons c rest =>
          obtain ⟨d, left, spelled⟩ := squeeze_cons c rest
          have valued := value_agrees alike ty (c :: rest)
          dsimp only [Option.map_some]
          rw [spelled] at valued ⊢
          rw [wholeValue_iff given]
          dsimp only
          generalize Check.value first ty (c :: rest) = stored, Check.value second ty (d :: left) = kept at valued
          cases valued with
          | ok whole => exact .congr (alike.declare ⟨rfl, rfl, rfl, rfl⟩ identifier) (iff_of_true trivial whole)
          | fault => exact .fault
          | unsound broken => exact .unsound broken

theorem assign_agrees (alike : first.Alike second) (fragment : Fragment) :
    Agrees (WholeValue fragment) Scopes.Alike (Check.assign fragment first) (Check.assign fragment.squeeze second) := by
  dsimp only [Check.assign, Fragment.squeeze]
  rw [isIdentifier_squeeze]
  cases identifier : isIdentifier fragment.name with
  | false => exact .fault
  | true =>
    simp only [Bool.not_true, Bool.false_eq_true, if_false]
    have looked := alike.lookup fragment.name
    rw [squeeze_of_isIdentifier identifier] at looked ⊢
    generalize first.lookup fragment.name = target, second.lookup fragment.name = found at looked
    cases looked with
    | none => exact .fault
    | @some target found same =>
      dsimp only
      rw [same.isFinal, same.ty]
      split
      · exact .fault
      · cases given : fragment.value? with
        | none => exact .fault
        | some t =>
          cases t with
          | nil => exact .fault
          | cons c rest =>
            obtain ⟨d, left, spelled⟩ := squeeze_cons c rest
            have valued := value_agrees alike target.ty (c :: rest)
            dsimp only [Option.map_some]
            rw [spelled] at valued ⊢
            rw [wholeValue_iff given]
            dsimp only
            generalize Check.value first target.ty (c :: rest) = stored,
              Check.value second target.ty (d :: left) = kept at valued
            cases valued with
            | ok whole => exact .ok whole (alike.assign fragment.name _ _)
            | fault => exact .fault
            | unsound broken => exact .unsound broken

private theorem forall_mem_valuesOf_iff {line : Text} {read : VariableLine} (known : VariableLine.ofLine? line = some read) :
    (∀ t ∈ VariableLine.valuesOf line, ¬ t.IsStretched) ↔ ∀ fragment ∈ read.fragments, WholeValue fragment := by
  obtain ⟨rest, -, fragments⟩ := VariableLine.exists_of_ofLine? known
  have trimmed : ∀ fragment ∈ read.fragments, ∀ t, fragment.value? = some t → t.trim = t := by
    rw [fragments]
    intro fragment member t given
    obtain ⟨piece, -, rfl⟩ := List.mem_map.mp member
    exact Fragment.trim_of_value? given
  rw [VariableLine.valuesOf, known]
  constructor
  · intro whole fragment member t given
    rw [trimmed fragment member t given]
    exact whole t (List.mem_filterMap.mpr ⟨fragment, member, given⟩)
  · intro whole t member
    obtain ⟨fragment, there, given⟩ := List.mem_filterMap.mp member
    rw [← trimmed fragment there t given]
    exact whole fragment there t given

theorem variableLine_agrees {line other : Text}
    (same : VariableLine.ofLine? other = (VariableLine.ofLine? line).map VariableLine.squeeze) :
    AgreesTo (∀ t ∈ VariableLine.valuesOf line, ¬ t.IsStretched) Scopes.Alike (fun _ _ => Scopes.Alike)
      (Check.variableLine line) (Check.variableLine other) := by
  unfold Check.variableLine
  rw [same]
  cases known : VariableLine.ofLine? line with
  | none => exact .raise
  | some read =>
    rw [forall_mem_valuesOf_iff known]
    cases read with
    | declaration isFinal ty fragments =>
      exact .forM fun fragment _ => .step fun _ _ alike => declare_agrees alike isFinal ty fragment
    | assignment fragments => exact .forM fun fragment _ => .step fun _ _ alike => assign_agrees alike fragment

private theorem atom_agrees (alike : first.Alike second) (t : Text) :
    Agrees True (fun _ _ => True) (Check.atom first t) (Check.atom second t.squeeze) := by
  rw [Check.atom, Check.atom, Literal.isBoolean_squeeze, Literal.isNumeric_squeeze, isIdentifier_squeeze]
  split
  · exact .ok trivial trivial
  · split
    · exact .fault
    · have looked := alike.lookup t
      generalize first.lookup t = source, second.lookup t.squeeze = found at looked
      cases looked with
      | none => exact .fault
      | some same =>
        dsimp only
        rw [same.isInitialized, same.ty]
        split
        · exact .fault
        · split
          · exact .fault
          · exact .ok trivial trivial

theorem condition_agrees (alike : first.Alike second) (t : Text) :
    Agrees True (fun _ _ => True) (Check.condition first t) (Check.condition second t.squeeze) := by
  rw [Check.condition, Check.condition, atoms_squeeze]
  generalize t.squeeze = told
  induction Check.atoms t with
  | nil => exact .ok trivial trivial
  | cons piece pieces ih =>
    rw [List.map_cons, Check.atomsOf, Check.atomsOf, trim_squeeze, isEmpty_squeeze]
    split
    · exact .fault
    · have here := atom_agrees alike piece.trim
      generalize Check.atom first piece.trim = looked, Check.atom second piece.trim.squeeze = seen at here
      cases here with
      | ok => exact ih
      | fault => exact .fault
      | unsound broken => exact absurd trivial broken

theorem argumentsOf_squeeze (t : Text) : Check.argumentsOf t.squeeze = (Check.argumentsOf t).map squeeze := by
  have comma : isBlank ',' = false := rfl
  rw [Check.argumentsOf, Check.argumentsOf, trim_squeeze, isEmpty_squeeze, splitOutside_squeeze comma]
  split <;> rfl

private theorem arguments_agree (alike : first.Alike second) (given : List Text) (wanted : List Parameter)
    (long : given.length = wanted.length) :
    Agrees (∀ t ∈ given, ¬ t.trim.IsStretched) (fun _ _ => True) (Check.arguments first given wanted)
      (Check.arguments second (given.map squeeze) wanted) := by
  induction given generalizing wanted with
  | nil => exact .ok nofun trivial
  | cons argument given ih =>
    cases wanted with
    | nil => cases long
    | cons parameter wanted =>
      have here := value_agrees alike parameter.ty argument
      have later := ih wanted (Nat.succ.inj long)
      rw [List.map_cons, Check.arguments, Check.arguments, List.forall_mem_cons]
      generalize Check.value first parameter.ty argument = looked,
        Check.value second parameter.ty argument.squeeze = seen at here
      cases here with
      | fault => exact .fault
      | unsound broken => exact .unsound fun both => broken both.1
      | ok whole => exact later.congr (and_iff_right whole).symm

theorem call_agrees (table : MethodTable) (alike : first.Alike second) (callee given : Text) :
    Agrees (∀ t ∈ Check.argumentsOf given, ¬ t.trim.IsStretched) (fun _ _ => True) (Check.call table first callee given)
      (Check.call table.collapse second callee given.squeeze) := by
  rw [Check.call, Check.call, MethodTable.get?_collapse]
  cases table.get? callee with
  | none => exact .fault
  | some method =>
    dsimp only [Option.map_some, Method.collapse]
    rw [argumentsOf_squeeze, List.length_map]
    split
    · next long => exact arguments_agree alike _ _ long
    · exact .fault

end SqueezedChecks
end Linewise
