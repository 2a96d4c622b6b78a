import Linewise.Check.Program
import Linewise.Proofs.BodySteps
import Linewise.Proofs.ScopeComparison

/-! Checks of the same lines side by side, from scopes that are paired somehow. All that a check
sees of the scopes is what some texts of its line stand for and which names the current scope
has. So whatever pairs the scopes answers alike for these texts, and is kept by each change of
the scopes, is kept by every check, and the second side follows the first. -/

namespace Linewise

def MethodTable.ExtendedBy (table other : MethodTable) : Prop :=
  ∀ name method, table.get? name = some method →
    ∃ found, other.get? name = some found ∧ found.parameters = method.parameters

theorem MethodTable.ExtendedBy.refl (table : MethodTable) : table.ExtendedBy table :=
  fun _ method known => ⟨method, known, rfl⟩

/-- The texts of a fragment that are looked up, its name among them. -/
def Fragment.lookups (fragment : Fragment) : List Text :=
  fragment.name :: fragment.value?.toList.map Text.trim

def VariableLine.fragments : VariableLine → List Fragment
  | .declaration _ _ fragments | .assignment fragments => fragments

def VariableLine.lookupsOf (line : Text) : List Text :=
  (VariableLine.ofLine? line).elim [] fun read => read.fragments.flatMap Fragment.lookups

def Statement.lookups (line : Text) : Statement → List Text
  | .declaration | .assignment => VariableLine.lookupsOf line
  | .call _ given => (Check.argumentsOf given).map Text.trim
  | .blockHead t => (Check.atoms t).map Text.trim
  | .methodHead _ _ | .blockEnd | .ret => []

def Check.lookups (line : Text) : List Text :=
  (Statement.ofLine line).elim [] (Statement.lookups line.trim)

/-- A way to pair scopes, which may depend on how many blocks are open. Paired scopes give
related answers for the texts that are seen, and what a check does to both keeps them paired. -/
structure Lockstep (strict : Prop) (related : Binding → Binding → Prop) (seen : Text → Prop)
    (pairs : Nat → Scopes → Scopes → Prop) : Prop where
  overlooks : Overlooks strict related
  lookup : ∀ {count first second t}, pairs count first second → seen t →
    Option.Rel related (first.lookup t) (second.lookup t)
  contains : ∀ {count first second}, pairs (count + 1) first second → ∀ name,
    second.current.contains name = first.current.contains name
  declared : ∀ {count first second} {binding other : Binding}, pairs (count + 1) first second →
    other.name = binding.name → related binding other →
    pairs (count + 1) { first with current := binding :: first.current } { second with current := other :: second.current }
  assign : ∀ {count first second}, pairs count first second → ∀ name value other,
    pairs count (first.assign name value) (second.assign name other)
  opened : ∀ {count first second}, pairs count first second → pairs (count + 1) first.opened second.opened
  close : ∀ {count first second}, pairs (count + 1) first second →
    Answers strict (pairs count) first.close second.close

namespace Lockstep
open Run

variable {strict : Prop} {related : Binding → Binding → Prop} {seen : Text → Prop}
  {pairs : Nat → Scopes → Scopes → Prop} {first second : Scopes} {table other : MethodTable} {count : Nat}

def Somewhere (pairs : Nat → Scopes → Scopes → Prop) (first second : Scopes) : Prop :=
  ∃ count, pairs count first second

theorem somewhere : ∀ state other, pairs count state other → Somewhere pairs state other :=
  fun _ _ paired => ⟨count, paired⟩

private theorem initialized_answers {α : Type} {same : α → α → Prop} {binding found : Binding}
    (overlooks : Overlooks strict related) (holds : related binding found) (fault : Fault)
    {result answer : Except Fault α} (goes : Answers strict same result answer) :
    Answers strict same (if !binding.isInitialized then .error fault else result)
      (if !found.isInitialized then .error fault else answer) := by
  cases before : binding.isInitialized with
  | true =>
    rw [overlooks.initialized binding found holds before]
    exact goes
  | false =>
    cases after : found.isInitialized with
    | true =>
      refine .free fun exact => ?_
      rw [overlooks.uninitialized exact binding found holds after] at before
      cases before
    | false => exact .fault

theorem lookup_somewhere (lockstep : Lockstep strict related seen pairs) (paired : Somewhere pairs first second)
    {t : Text} (known : seen t) : Option.Rel related (first.lookup t) (second.lookup t) := by
  obtain ⟨_, paired⟩ := paired
  exact lockstep.lookup paired known

theorem value_answers (lockstep : Lockstep strict related seen pairs) (paired : Somewhere pairs first second) {t : Text}
    (known : seen t.trim) (target : Ty) :
    Answers strict (fun _ _ => True) (Check.value first target t) (Check.value second target t) := by
  dsimp only [Check.value]
  have looked := lockstep.lookup_somewhere paired known
  generalize first.lookup t.trim = source, second.lookup t.trim = found at looked
  cases looked with
  | none => exact .refl (fun _ => trivial) _
  | some holds =>
    dsimp only
    rw [lockstep.overlooks.ty _ _ holds]
    split
    · exact .fault
    · exact initialized_answers lockstep.overlooks holds _ (.ok trivial)

theorem declare (lockstep : Lockstep strict related seen pairs) (paired : pairs (count + 1) first second)
    {binding other : Binding} (named : other.name = binding.name) (holds : related binding other) :
    Answers strict (pairs (count + 1)) (first.declare binding) (second.declare other) := by
  unfold Scopes.declare
  rw [named, lockstep.contains paired]
  split
  · exact .fault
  · exact .ok (lockstep.declared paired named holds)

theorem declare_answers (lockstep : Lockstep strict related seen pairs) (paired : pairs (count + 1) first second)
    (isFinal : Bool) (ty : Ty) {fragment : Fragment} (known : ∀ t ∈ fragment.lookups, seen t) :
    Answers strict (pairs (count + 1)) (Check.declare isFinal ty fragment first)
      (Check.declare isFinal ty fragment second) := by
  dsimp only [Check.declare]
  rw [lockstep.contains paired]
  split
  · exact .fault
  · split
    · exact .fault
    · cases given : fragment.value? with
      | none =>
        dsimp only
        split
        · exact .fault
        · exact lockstep.declare paired rfl (lockstep.overlooks.valued _ _)
      | some t =>
        cases t with
        | nil => exact .fault
        | cons c rest =>
          dsimp only
          have valued := lockstep.value_answers ⟨_, paired⟩ (known (Text.trim (c :: rest)) (by simp [Fragment.lookups, given])) ty
          generalize Check.value first ty (c :: rest) = stored, Check.value second ty (c :: rest) = kept at valued
          cases valued with
          | ok _ => exact lockstep.declare paired rfl (lockstep.overlooks.valued _ _)
          | fault => exact .fault
          | free lax => exact .free lax

theorem assign_answers (lockstep : Lockstep strict related seen pairs) (paired : pairs count first second)
    {fragment : Fragment} (known : ∀ t ∈ fragment.lookups, seen t) :
    Answers strict (pairs count) (Check.assign fragment first) (Check.assign fragment second) := by
  dsimp only [Check.assign]
  split
  · exact .fault
  · have looked := lockstep.lookup paired (known fragment.name (by simp [Fragment.lookups]))
    generalize first.lookup fragment.name = target, second.lookup fragment.name = found at looked
    cases looked with
    | none => exact .fault
    | @some target found holds =>
      dsimp only
      rw [lockstep.overlooks.isFinal _ _ holds, lockstep.overlooks.ty _ _ holds]
      split
      · exact .fault
      · cases given : fragment.value? with
        | none => exact .fault
        | some t =>
          cases t with
          | nil => exact .fault
          | cons c rest =>
            dsimp only
            have valued :=
              lockstep.value_answers ⟨_, paired⟩ (known (Text.trim (c :: rest)) (by simp [Fragment.lookups, given])) target.ty
            generalize Check.value first target.ty (c :: rest) = stored,
              Check.value second target.ty (c :: rest) = kept at valued
            cases valued with
            | ok _ => exact .ok (lockstep.assign paired _ _ _)
            | fault => exact .fault
            | free lax => exact .free lax

theorem variableLine_follows (lockstep : Lockstep strict related seen pairs) (count : Nat) {line : Text}
    (known : ∀ t ∈ VariableLine.lookupsOf line, seen t) :
    FollowsTo strict (pairs (count + 1)) (fun _ => pairs (count + 1)) (Somewhere pairs)
      (Check.variableLine line) (Check.variableLine line) := by
  unfold VariableLine.lookupsOf at known
  unfold Check.variableLine
  split
  · exact .raise somewhere
  · next reads =>
    rw [reads] at known
    refine .forM fun fragment member => .step somewhere fun _ _ paired => ?_
    exact lockstep.declare_answers paired _ _ fun t looked => known t (List.mem_flatMap.mpr ⟨fragment, member, looked⟩)
  · next reads =>
    rw [reads] at known
    refine .forM fun fragment member => .step somewhere fun _ _ paired => ?_
    exact lockstep.assign_answers paired fun t looked => known t (List.mem_flatMap.mpr ⟨fragment, member, looked⟩)

private theorem atom_answers (lockstep : Lockstep strict related seen pairs) (paired : Somewhere pairs first second)
    {t : Text} (known : seen t) : Answers strict (· = ·) (Check.atom first t) (Check.atom second t) := by
  unfold Check.atom
  split
  · exact .ok rfl
  · split
    · exact .fault
    · have looked := lockstep.lookup_somewhere paired known
      generalize first.lookup t = target, second.lookup t = found at looked
      cases looked with
      | none => exact .fault
      | some holds =>
        dsimp only
        rw [lockstep.overlooks.ty _ _ holds]
        exact initialized_answers lockstep.overlooks holds _ (.refl (fun _ => rfl) _)

theorem condition_answers (lockstep : Lockstep strict related seen pairs) (paired : Somewhere pairs first second)
    {t : Text} (known : ∀ atom ∈ (Check.atoms t).map Text.trim, seen atom) :
    Answers strict (· = ·) (Check.condition first t) (Check.condition second t) := by
  unfold Check.condition
  generalize Check.atoms t = rest at known
  induction rest with
  | nil => exact .ok rfl
  | cons atom rest ih =>
    rw [Check.atomsOf, Check.atomsOf]
    split
    · exact .fault
    · have answered := lockstep.atom_answers paired (known atom.trim (by simp))
      generalize Check.atom first atom.trim = found, Check.atom second atom.trim = met at answered
      cases answered with
      | ok _ => exact ih fun other member => known other (List.mem_cons_of_mem _ member)
      | fault => exact .fault
      | free lax => exact .free lax

private theorem arguments_answers (lockstep : Lockstep strict related seen pairs) (paired : Somewhere pairs first second)
    {given : List Text} (known : ∀ argument ∈ given.map Text.trim, seen argument) (parameters : List Parameter) :
    Answers strict (· = ·) (Check.arguments first given parameters) (Check.arguments second given parameters) := by
  induction given generalizing parameters with
  | nil => exact .ok rfl
  | cons argument given ih =>
    cases parameters with
    | nil => exact .ok rfl
    | cons parameter parameters =>
      rw [Check.arguments, Check.arguments]
      have valued := lockstep.value_answers paired (known argument.trim (by simp)) parameter.ty
      generalize Check.value first parameter.ty argument = found,
        Check.value second parameter.ty argument = met at valued
      cases valued with
      | ok _ => exact ih (fun other member => known other (List.mem_cons_of_mem _ member)) parameters
      | fault => exact .fault
      | free lax => exact .free lax

theorem call_answers (lockstep : Lockstep strict related seen pairs) (paired : Somewhere pairs first second)
    (extended : table.ExtendedBy other) (reverse : strict → other.ExtendedBy table) (callee : Text) {given : Text}
    (known : ∀ argument ∈ (Check.argumentsOf given).map Text.trim, seen argument) :
    Answers strict (· = ·) (Check.call table first callee given) (Check.call other second callee given) := by
  unfold Check.call
  cases here : table.get? callee with
  | none =>
    cases there : other.get? callee with
    | none => exact .fault
    | some found =>
      refine .free fun exact => ?_
      obtain ⟨_, missed, _⟩ := reverse exact callee found there
      rw [here] at missed
      cases missed
  | some method =>
    obtain ⟨found, there, alike⟩ := extended callee method here
    rw [there]
    dsimp only
    rw [alike]
    split
    · exact lockstep.arguments_answers paired known _
    · exact .fault

theorem statement_follows (lockstep : Lockstep strict related seen pairs) (extended : table.ExtendedBy other)
    (reverse : strict → other.ExtendedBy table) (line : Text) (depth : Nat) {statement : Statement}
    (known : ∀ t ∈ statement.lookups line, seen t) :
    FollowsTo strict (pairs depth) pairs (Somewhere pairs) (Check.statement table line depth statement)
      (Check.statement other line depth statement) := by
  cases depth with
  | zero => cases statement <;> exact .raise somewhere
  | succ depth =>
    cases statement with
    | methodHead name parameters => exact .raise somewhere
    | blockEnd =>
      apply FollowsTo.bind
      · exact .step somewhere fun _ _ paired => lockstep.close paired
      · exact fun _ => .pure fun _ _ paired => paired
    | blockHead t =>
      apply FollowsTo.bind
      · exact .test somewhere fun _ _ paired => lockstep.condition_answers ⟨_, paired⟩ known
      · intro _
        apply FollowsTo.bind
        · exact .step somewhere fun _ _ paired => .ok (lockstep.opened paired)
        · exact fun _ => .pure fun _ _ paired => paired
    | call callee given =>
      apply FollowsTo.bind
      · exact .test somewhere fun _ _ paired => lockstep.call_answers ⟨_, paired⟩ extended reverse callee known
      · exact fun _ => .pure fun _ _ paired => paired
    | declaration | assignment =>
      apply FollowsTo.bind (lockstep.variableLine_follows depth known)
      exact fun _ => .pure fun _ _ paired => paired
    | ret => exact .pure fun _ _ paired => paired

theorem line_follows (lockstep : Lockstep strict related seen pairs) (extended : table.ExtendedBy other)
    (reverse : strict → other.ExtendedBy table) (depth : Nat) {line : Text}
    (known : ∀ t ∈ Check.lookups line, seen t) :
    FollowsTo strict (pairs depth) pairs (Somewhere pairs) (Check.line table depth line) (Check.line other depth line) := by
  apply FollowsTo.bind (.read line.trim somewhere)
  intro statement first second ⟨here, paired⟩
  rw [Statement.ofLine_trim] at here
  unfold Check.lookups at known
  rw [here] at known
  exact lockstep.statement_follows extended reverse line.trim depth known first second paired

theorem lines_follow (lockstep : Lockstep strict related seen pairs) (extended : table.ExtendedBy other)
    (reverse : strict → other.ExtendedBy table) (depth : Nat) {lines : List Text}
    (known : ∀ line ∈ lines, ∀ t ∈ Check.lookups line, seen t) :
    FollowsTo strict (pairs depth) pairs (Somewhere pairs) (Check.lines table depth lines)
      (Check.lines other depth lines) := by
  induction lines generalizing depth with
  | nil => exact .pure fun _ _ paired => paired
  | cons line lines ih =>
    rw [BodySteps.lines_cons, BodySteps.lines_cons]
    apply FollowsTo.bind (lockstep.line_follows extended reverse depth (known line (by simp)))
    intro next
    exact ih next fun other member => known other (by simp [member])

private theorem parameters_follow (lockstep : Lockstep strict related seen pairs) (parameters : List Parameter) :
    FollowsTo strict (pairs (count + 1)) (fun _ => pairs (count + 1)) (Somewhere pairs)
      (Check.parameters parameters) (Check.parameters parameters) :=
  .forM fun _ _ => .step somewhere fun _ _ paired => lockstep.declare paired rfl (lockstep.overlooks.valued _ _)

private theorem trailingReturn_follows (checked : Method) :
    FollowsTo strict (pairs count) (fun _ => pairs count) (Somewhere pairs)
      (Check.trailingReturn checked) (Check.trailingReturn checked) := by
  unfold Check.trailingReturn
  split
  · exact .tell _
  · split
    · exact .pure fun _ _ paired => paired
    · exact .raise somewhere

/-- The check of a method keeps scopes paired, as long as all that its lines look up is seen. -/
theorem method_follows (lockstep : Lockstep strict related seen pairs) (extended : table.ExtendedBy other)
    (reverse : strict → other.ExtendedBy table) {checked : Method}
    (known : ∀ line ∈ checked.body, ∀ t ∈ Check.lookups line, seen t) :
    FollowsTo strict (pairs 0) (fun _ => pairs 0) (Somewhere pairs) (Check.method table checked)
      (Check.method other checked) := by
  apply FollowsTo.bind (trailingReturn_follows checked)
  intro _
  apply FollowsTo.bind (.step somewhere fun _ _ paired => .ok (lockstep.opened paired))
  intro _
  apply FollowsTo.bind (lockstep.parameters_follow checked.parameters)
  intro _
  apply FollowsTo.bind (lockstep.lines_follow extended reverse 1 known)
  intro depth
  cases depth with
  | zero => exact .pure fun _ _ paired => paired
  | succ depth => exact .raise somewhere

end Lockstep
end Linewise
