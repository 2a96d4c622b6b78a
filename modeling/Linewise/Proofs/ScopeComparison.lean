import Linewise.Proofs.RunComparison
import Linewise.Proofs.ScopeGrowth

/-! Stacks of scopes side by side. They are as deep as each other and bind the same names in the
same places, and the bindings in one place are related. How is left open, as long as the
relation does not look at values and sees all the rest that a check can see. -/

namespace Linewise

/-- A relation of bindings that overlooks the values. A variable of the second side may be
initialized where that of the first is not, unless the comparison is strict. -/
structure Overlooks (strict : Prop) (related : Binding → Binding → Prop) : Prop where
  ty : ∀ first second, related first second → second.ty = first.ty
  isFinal : ∀ first second, related first second → second.isFinal = first.isFinal
  initialized : ∀ first second, related first second → first.isInitialized = true → second.isInitialized = true
  uninitialized : strict → ∀ first second, related first second →
    second.isInitialized = true → first.isInitialized = true
  valued : ∀ binding value, related binding { binding with value }
  assigned : ∀ first second value other, related first second →
    related (first.assigned value) (second.assigned other)

structure Scopes.Compares (related : Binding → Binding → Prop) (first second : Scopes) : Prop where
  depth : second.depth = first.depth
  slots : ∀ height name, Option.Rel related (first.slot height name) (second.slot height name)

namespace Scopes.Compares

variable {strict : Prop} {related : Binding → Binding → Prop} {first second : Scopes}

theorem refl (overlooks : Overlooks strict related) (scopes : Scopes) : scopes.Compares related scopes := by
  refine ⟨rfl, ?_⟩
  intro height name
  cases scopes.slot height name with
  | none => exact .none
  | some binding => exact .some (overlooks.valued binding binding.value)

theorem slot_eq_none_iff (compares : first.Compares related second) {height : Nat} {name : Text} :
    second.slot height name = none ↔ first.slot height name = none := by
  have slots := compares.slots height name
  generalize first.slot height name = found, second.slot height name = met at slots
  cases slots <;> simp

theorem contains_current (compares : first.Compares related second) (name : Text) :
    second.current.contains name = first.current.contains name := by
  have slots := compares.slots first.depth name
  rw [Scopes.slot_depth, ← compares.depth, Scopes.slot_depth] at slots
  unfold Scope.contains
  generalize first.current.get? name = found, second.current.get? name = met at slots
  cases slots <;> rfl

/-- A name stands for something at the same height in both stacks. -/
theorem resolves (compares : first.Compares related second) {name : Text} {height : Nat} {binding : Binding}
    (resolves : first.Resolves name height binding) :
    ∃ other, second.Resolves name height other ∧ related binding other := by
  have slots := compares.slots height name
  rw [resolves.bound] at slots
  generalize met : second.slot height name = found at slots
  cases slots with
  | some holds =>
    refine ⟨_, ⟨met, ?_⟩, holds⟩
    intro above higher
    exact compares.slot_eq_none_iff.mpr (resolves.highest above higher)

theorem resolves_first (compares : first.Compares related second) {name : Text} {height : Nat} {other : Binding}
    (resolves : second.Resolves name height other) :
    ∃ binding, first.Resolves name height binding ∧ related binding other := by
  have slots := compares.slots height name
  rw [resolves.bound] at slots
  generalize met : first.slot height name = found at slots
  cases slots with
  | some holds =>
    refine ⟨_, ⟨met, ?_⟩, holds⟩
    intro above higher
    exact compares.slot_eq_none_iff.mp (resolves.highest above higher)

theorem lookup (compares : first.Compares related second) (name : Text) :
    Option.Rel related (first.lookup name) (second.lookup name) := by
  cases found : first.lookup name with
  | none =>
    have unbound := Scopes.lookup_eq_none_iff.mp found
    have unfound : second.lookup name = none :=
      Scopes.lookup_eq_none_iff.mpr fun height => compares.slot_eq_none_iff.mpr (unbound height)
    rw [unfound]
    exact .none
  | some binding =>
    obtain ⟨height, resolves⟩ := Scopes.lookup_eq_some_iff.mp found
    obtain ⟨other, met, holds⟩ := compares.resolves resolves
    rw [Scopes.lookup_eq_some_iff.mpr ⟨height, met⟩]
    exact .some holds

theorem opened (compares : first.Compares related second) : first.opened.Compares related second.opened := by
  refine ⟨congrArg Nat.succ compares.depth, ?_⟩
  intro height name
  rw [Scopes.slot_opened, Scopes.slot_opened]
  exact compares.slots height name

private theorem closed {after last : Scopes} (compares : first.Compares related second)
    (closes : first.close = .ok after) (closing : second.close = .ok last) : after.Compares related last := by
  have depth := compares.depth
  have lowered := Scopes.depth_of_close closes
  have lower := Scopes.depth_of_close closing
  refine ⟨by omega, ?_⟩
  intro height name
  by_cases remains : height ≤ after.depth
  · rw [Scopes.slot_of_close closes name remains, Scopes.slot_of_close closing name (by omega)]
    exact compares.slots height name
  · rw [Scopes.slot_of_depth_lt name (by omega), Scopes.slot_of_depth_lt name (by omega)]
    exact .none

theorem close (compares : first.Compares related second) :
    Answers strict (Scopes.Compares related) first.close second.close := by
  rcases first with ⟨current, _ | ⟨outer, enclosing⟩⟩
  · rcases second with ⟨other, _ | ⟨next, others⟩⟩
    · exact .fault
    · cases compares.depth
  · rcases second with ⟨other, _ | ⟨next, others⟩⟩
    · cases compares.depth
    · exact .ok (compares.closed rfl rfl)

theorem declared (compares : first.Compares related second) {binding other : Binding} (named : other.name = binding.name)
    (holds : related binding other) :
    Scopes.Compares related { first with current := binding :: first.current }
      { second with current := other :: second.current } := by
  refine ⟨compares.depth, ?_⟩
  intro height name
  rw [Scopes.slot_of_declared, Scopes.slot_of_declared, compares.depth, named]
  split
  · exact .some holds
  · exact compares.slots height name

theorem declare (compares : first.Compares related second) {binding other : Binding} (named : other.name = binding.name)
    (holds : related binding other) :
    Answers strict (Scopes.Compares related) (first.declare binding) (second.declare other) := by
  unfold Scopes.declare
  rw [named, compares.contains_current]
  split
  · exact .fault
  · exact .ok (compares.declared named holds)

theorem assign (compares : first.Compares related second) (overlooks : Overlooks strict related) (name : Text)
    (value other : Option Text) : (first.assign name value).Compares related (second.assign name other) := by
  refine ⟨by rw [Scopes.depth_assign, Scopes.depth_assign, compares.depth], ?_⟩
  intro height reached
  have slots := compares.slots height reached
  cases found : first.lookup name with
  | none =>
    have looked := compares.lookup name
    rw [found] at looked
    generalize met : second.lookup name = unfound at looked
    cases looked
    rwa [Scopes.assign_of_unfound value found, Scopes.assign_of_unfound other met]
  | some binding =>
    obtain ⟨place, resolves⟩ := Scopes.lookup_eq_some_iff.mp found
    obtain ⟨target, met, holds⟩ := compares.resolves resolves
    by_cases same : reached = name
    · subst same
      obtain ⟨written, kept⟩ := Scopes.slot_assign_of_resolves value resolves
      obtain ⟨rewritten, unchanged⟩ := Scopes.slot_assign_of_resolves other met
      by_cases here : height = place
      · subst here
        rw [written, rewritten]
        exact .some (overlooks.assigned _ _ value other holds)
      · rwa [kept height here, unchanged height here]
    · rwa [Scopes.slot_assign_of_ne value same, Scopes.slot_assign_of_ne other same]

end Scopes.Compares

theorem Binding.AtMost.overlooks : Overlooks False Binding.AtMost where
  ty _ _ atMost := atMost.ty
  isFinal _ _ atMost := atMost.isFinal
  initialized _ _ atMost := atMost.initialized
  uninitialized impossible := impossible.elim
  valued _ _ := ⟨rfl, rfl, rfl, id⟩
  assigned _ _ _ _ atMost := ⟨atMost.name, atMost.ty, atMost.isFinal, fun _ => rfl⟩

/-- A stack that has grown and is as deep as before still binds the same names. -/
theorem Scopes.Grows.compares {first last : Scopes} (grows : first.Grows last) (depth : last.depth = first.depth) :
    first.Compares Binding.AtMost last := by
  refine ⟨depth, ?_⟩
  intro height name
  by_cases within : height ≤ first.depth
  · have slots := grows.slots height within name
    generalize first.slot height name = found, last.slot height name = met at slots
    cases slots with
    | none => exact .none
    | some grown => exact .some grown.toAtMost
  · rw [Scopes.slot_of_depth_lt name (by omega), Scopes.slot_of_depth_lt name (by omega)]
    exact .none

theorem Scopes.Compares.trans {first middle last : Scopes} (begins : first.Compares Binding.AtMost middle)
    (goes : middle.Compares Binding.AtMost last) : first.Compares Binding.AtMost last := by
  refine ⟨goes.depth.trans begins.depth, ?_⟩
  intro height name
  have earlier := begins.slots height name
  have later := goes.slots height name
  generalize first.slot height name = found, middle.slot height name = met, last.slot height name = left
    at earlier later
  cases earlier with
  | none =>
    cases later
    exact .none
  | some atMost =>
    cases later with
    | some more => exact .some (atMost.trans more)

end Linewise
