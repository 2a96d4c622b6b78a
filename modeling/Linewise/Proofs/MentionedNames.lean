import Linewise.Proofs.LineWords
import Linewise.Proofs.StoredValues

/-! The check of a method depends on the names that its body mentions, and on nothing else that
is bound outside. Two stacks, as deep as they like, that give these names the same meaning are
told apart by no line: what the check has opened above them is alike, and below that only names
of the body are looked up, or texts that are no names and stand for nothing. -/

namespace Linewise

theorem isWordChar_of_isIdentifier {name : Text} (identifier : isIdentifier name = true) :
    ∀ c ∈ name, Text.isWordChar c = true := by
  simp only [isIdentifier, Bool.and_eq_true] at identifier
  have shaped := identifier.1
  have lettered {c : Char} (letter : c.isAlpha = true) : Text.isWordChar c = true :=
    Text.isWordChar_of_starts (by rw [letter, Bool.true_or])
  match name with
  | [] => exact nofun
  | [c] =>
    intro d member
    cases List.mem_singleton.mp member
    exact lettered shaped
  | c :: d :: rest =>
    simp only [hasNameShape, Bool.and_eq_true, Bool.or_eq_true, beq_iff_eq, List.all_eq_true] at shaped
    obtain ⟨starts, others⟩ := shaped
    intro e member
    simp only [List.mem_cons] at member
    rcases member with rfl | rfl | member
    · rcases starts with ⟨letter, _⟩ | ⟨rfl, _⟩
      · exact lettered letter
      · rfl
    · rcases starts with ⟨_, word⟩ | ⟨_, letter⟩
      · exact word
      · exact lettered letter
    · exact others e member

def Method.Mentions (method : Method) (name : Text) : Prop :=
  isIdentifier name = true ∧ ∃ line ∈ method.body, name.IsWordOf line

namespace Scopes

def BindsIdentifiers (scopes : Scopes) : Prop :=
  ∀ name binding, scopes.lookup name = some binding → isIdentifier name = true

/-- These names stand for the same variables on both sides, or for none, whatever the values are. -/
def AgreeOn (names : Text → Prop) (first second : Scopes) : Prop :=
  ∀ name, names name → Option.Rel Binding.SameButValue (first.lookup name) (second.lookup name)

theorem bindsIdentifiers_of_mem {scopes : Scopes}
    (named : ∀ scope ∈ scopes.frames, ∀ binding ∈ scope, isIdentifier binding.name = true) : scopes.BindsIdentifiers := by
  intro name binding found
  obtain ⟨scope, member, held⟩ := List.exists_of_findSome?_eq_some found
  rw [← name_of_lookup found]
  exact named scope member binding (List.mem_of_find?_eq_some held)

theorem BindsIdentifiers.assign {scopes : Scopes} (named : scopes.BindsIdentifiers) (name : Text) (value : Option Text) :
    (scopes.assign name value).BindsIdentifiers := by
  intro other binding found
  by_cases same : other = name
  · subst same
    cases before : scopes.lookup other with
    | none =>
      rw [assign_of_unfound value before, before] at found
      cases found
    | some target => exact named other target before
  · rw [lookup_assign_of_ne value same] at found
    exact named other binding found

theorem AgreeOn.assign {names : Text → Prop} {first second : Scopes} (agree : first.AgreeOn names second)
    (name : Text) (value other : Option Text) : (first.assign name value).AgreeOn names (second.assign name other) := by
  intro found known
  have alike := agree found known
  by_cases same : found = name
  · subst same
    cases here : first.lookup found with
    | none =>
      rw [here] at alike
      cases there : second.lookup found with
      | none =>
        rw [assign_of_unfound value here, assign_of_unfound other there, here, there]
        exact .none
      | some target =>
        rw [there] at alike
        cases alike
    | some binding =>
      rw [here] at alike
      cases there : second.lookup found with
      | none =>
        rw [there] at alike
        cases alike
      | some target =>
        rw [there] at alike
        rw [lookup_assign_self value here, lookup_assign_self other there]
        exact .some (StoredValues.sameButValue_overlooks.assigned _ _ _ _ (Option.rel_some_some.mp alike))
  · rwa [lookup_assign_of_ne value same, lookup_assign_of_ne other same]

/-- Two stacks with as many scopes each that bind the same variables, above two that agree on
some names only. -/
inductive Beside (names : Text → Prop) : Nat → Scopes → Scopes → Prop where
  | outside {first second} (named : first.BindsIdentifiers) (known : second.BindsIdentifiers)
      (agree : first.AgreeOn names second) : Beside names 0 first second
  | inside {count first second} {scope other : Scope}
      (same : ∀ name, Option.Rel Binding.SameButValue (scope.get? name) (other.get? name))
      (outer : Beside names count first second) :
      Beside names (count + 1) ⟨scope, first.frames⟩ ⟨other, second.frames⟩

namespace Beside

variable {names : Text → Prop} {count : Nat} {first second : Scopes}

theorem lookup (beside : Beside names count first second) {t : Text} (known : isIdentifier t = true → names t) :
    Option.Rel Binding.SameButValue (first.lookup t) (second.lookup t) := by
  induction beside with
  | @outside first second named others agree =>
    cases identifier : isIdentifier t with
    | true => exact agree t (known identifier)
    | false =>
      have unbound {scopes : Scopes} (named : scopes.BindsIdentifiers) : scopes.lookup t = none := by
        cases found : scopes.lookup t with
        | none => rfl
        | some binding =>
          rw [named t binding found] at identifier
          cases identifier
      rw [unbound named, unbound others]
      exact .none
  | @inside count first second scope other same outer ih =>
    rw [lookup_above, lookup_above]
    have here := same t
    generalize scope.get? t = found, other.get? t = met at here
    cases here with
    | none => exact ih
    | some alike => exact .some alike

private theorem contains_of_same {scope other : Scope}
    (same : ∀ name, Option.Rel Binding.SameButValue (scope.get? name) (other.get? name)) (name : Text) :
    other.contains name = scope.contains name := by
  have here := same name
  unfold Scope.contains
  generalize scope.get? name = found, other.get? name = met at here
  cases here <;> rfl

private theorem same_assign {scope other : Scope}
    (same : ∀ name, Option.Rel Binding.SameButValue (scope.get? name) (other.get? name)) {name : Text}
    {binding target : Binding} (here : scope.get? name = some binding) (there : other.get? name = some target)
    (value stored : Option Text) (found : Text) :
    Option.Rel Binding.SameButValue ((scope.assign name value).get? found) ((other.assign name stored).get? found) := by
  have alike := same found
  by_cases equal : found = name
  · subst equal
    rw [here, there] at alike
    rw [Scope.get?_assign_self value here, Scope.get?_assign_self stored there]
    exact .some (StoredValues.sameButValue_overlooks.assigned _ _ _ _ (Option.rel_some_some.mp alike))
  · rwa [Scope.get?_assign_of_ne value equal, Scope.get?_assign_of_ne stored equal]

theorem assign (beside : Beside names count first second) (name : Text) (value stored : Option Text) :
    Beside names count (first.assign name value) (second.assign name stored) := by
  induction beside with
  | outside named known agree =>
    exact .outside (named.assign name value) (known.assign name stored) (agree.assign name value stored)
  | @inside count first second scope other same outer ih =>
    rw [assign_above, assign_above, contains_of_same same]
    split
    · next held =>
      obtain ⟨binding, here⟩ := Option.isSome_iff_exists.mp held
      rw [← contains_of_same same] at held
      obtain ⟨target, there⟩ := Option.isSome_iff_exists.mp held
      exact .inside (same_assign same here there value stored) outer
    · exact .inside same ih

theorem lockstep (names : Text → Prop) :
    Lockstep True Binding.SameButValue (fun t => isIdentifier t = true → names t) (Beside names) where
  overlooks := StoredValues.sameButValue_overlooks
  lookup beside known := beside.lookup known
  contains beside name := by
    cases beside with
    | inside same outer => exact contains_of_same same name
  declared beside named holds := by
    cases beside with
    | inside same outer =>
      refine .inside ?_ outer
      intro name
      rw [Scope.get?_cons, Scope.get?_cons, named]
      split
      · exact .some holds
      · exact same name
  assign beside := beside.assign
  opened beside := .inside (fun _ => .none) beside
  close beside := by
    cases beside with
    | inside same outer => exact .ok outer

end Beside
end Scopes

namespace MentionedNames
open Run

variable {table : MethodTable} {checked : Method} {first second : Scopes}

private theorem mentions_of_mem_lookups {line t : Text} (inBody : line ∈ checked.body) (looked : t ∈ Check.lookups line)
    (identifier : isIdentifier t = true) : checked.Mentions t :=
  ⟨identifier, line, inBody, isWordChar_of_isIdentifier identifier, Check.partOf_of_mem_lookups looked⟩

theorem method_follows_beside (table : MethodTable) (checked : Method) :
    FollowsTo True (Scopes.Beside checked.Mentions 0) (fun _ => Scopes.Beside checked.Mentions 0)
      (Lockstep.Somewhere (Scopes.Beside checked.Mentions)) (Check.method table checked) (Check.method table checked) := by
  apply (Scopes.Beside.lockstep checked.Mentions).method_follows (.refl table) (fun _ => .refl table)
  intro line inBody t looked
  exact mentions_of_mem_lookups inBody looked

private theorem agree_of_beside {names : Text → Prop} (beside : Scopes.Beside names 0 first second) :
    first.AgreeOn names second := by
  cases beside with
  | outside named known agree => exact agree

private theorem same_result (named : first.BindsIdentifiers) (known : second.BindsIdentifiers)
    (agree : first.AgreeOn checked.Mentions second) :
    (Check.method table checked second).result = (Check.method table checked first).result ∧
      ((Check.method table checked first).result = .ok () →
        (Check.method table checked first).state.AgreeOn checked.Mentions (Check.method table checked second).state) := by
  have answered := method_follows_beside table checked first second (.outside named known agree)
  change (ending (Check.method table checked) second).1 = (ending (Check.method table checked) first).1 ∧
    ((ending (Check.method table checked) first).1 = .ok () →
      (ending (Check.method table checked) first).2.AgreeOn checked.Mentions (ending (Check.method table checked) second).2)
  generalize ending (Check.method table checked) first = ended, ending (Check.method table checked) second = met at answered
  cases answered with
  | ok beside => exact ⟨rfl, fun _ => agree_of_beside beside⟩
  | fault _ => exact ⟨rfl, nofun⟩
  | free lax => exact absurd trivial lax

/-- The check of a method ends alike from scopes that agree on the names its body mentions, and
leaves scopes that agree on them. So what the global scope binds a name to, if anything, does
not matter to a method that does not mention it. -/
theorem only_mentioned_names_matter (table : MethodTable) (checked : Method) {first second : Scopes}
    (named : first.BindsIdentifiers) (known : second.BindsIdentifiers) :
    (first.AgreeOn checked.Mentions second →
      (Check.method table checked second).result = (Check.method table checked first).result ∧
        ((Check.method table checked first).result = .ok () →
          (Check.method table checked first).state.AgreeOn checked.Mentions
            (Check.method table checked second).state)) ∧
      ∀ name, ¬ checked.Mentions name →
        (∀ height other, height ≠ 0 ∨ other ≠ name → second.slot height other = first.slot height other) →
        (Check.method table checked second).result = (Check.method table checked first).result := by
  refine ⟨same_result named known, ?_⟩
  intro name unmentioned same
  refine (same_result named known ?_).1
  intro other mentioned
  have apart : other ≠ name := by
    rintro rfl
    exact unmentioned mentioned
  rw [Scopes.lookup_congr fun height => same height other (Or.inr apart)]
  cases first.lookup other with
  | none => exact .none
  | some binding => exact .some ⟨rfl, rfl, rfl, rfl⟩

def assigning : Method :=
  ⟨"f".toList, [⟨"c".toList, .int, false⟩], ["a = c;".toList, "return;".toList, ['}']]⟩

def wide : Scopes :=
  ⟨[⟨"b".toList, .boolean, true, true, none⟩, ⟨"a".toList, .int, false, false, none⟩], []⟩

/-- A scope more, and the second variable is missing. -/
def deep : Scopes :=
  ⟨[], [[⟨"a".toList, .int, false, false, none⟩]]⟩

theorem not_mentions_second : ¬ assigning.Mentions "b".toList := by
  intro ⟨_, line, member, _, before, after, whole, _, _⟩
  have unwritten : ∀ line ∈ assigning.body, 'b' ∉ line := by decide
  exact unwritten line member (by simp [whole])

theorem assigning_ends_alike :
    (Check.method {} assigning deep).result = (Check.method {} assigning wide).result ∧
      (Check.method {} assigning wide).state.AgreeOn assigning.Mentions (Check.method {} assigning deep).state := by
  have named : wide.BindsIdentifiers := Scopes.bindsIdentifiers_of_mem (by decide)
  have known : deep.BindsIdentifiers := Scopes.bindsIdentifiers_of_mem (by decide)
  have agree : wide.AgreeOn assigning.Mentions deep := by
    intro name mentioned
    have apart : "b".toList ≠ name := by
      rintro rfl
      exact not_mentions_second mentioned
    have same : deep.lookup name = wide.lookup name := by
      simp only [Scopes.lookup, Scopes.frames, wide, deep, List.findSome?_cons, Scope.get?_cons, if_neg apart]
      rfl
    rw [same]
    cases wide.lookup name with
    | none => exact .none
    | some binding => exact .some ⟨rfl, rfl, rfl, rfl⟩
  have passed : (Check.method {} assigning wide).result = .ok () := by
    decide +kernel
  obtain ⟨same, left⟩ := (only_mentioned_names_matter {} assigning named known).1 agree
  exact ⟨same, left passed⟩

end MentionedNames
end Linewise
