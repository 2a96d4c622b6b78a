import Linewise.Proofs.ScopeHeights

/-! Scopes grow while checks go on. New scopes may be opened above those that are there, and
variables of these may be assigned to, but their names, their types and what is final stay. -/

namespace Linewise

structure Binding.AtMost (first last : Binding) : Prop where
  name : last.name = first.name
  ty : last.ty = first.ty
  isFinal : last.isFinal = first.isFinal
  initialized : first.isInitialized = true → last.isInitialized = true

/-- What a binding may become later. A final one does not change at all. -/
structure Binding.Grows (first last : Binding) : Prop extends Binding.AtMost first last where
  final : first.isFinal = true → last = first

structure Scopes.Grows (first last : Scopes) : Prop where
  depth : first.depth ≤ last.depth
  slots : ∀ height ≤ first.depth, ∀ name,
    Option.Rel Binding.Grows (first.slot height name) (last.slot height name)

namespace Binding.AtMost

theorem refl (binding : Binding) : Binding.AtMost binding binding :=
  ⟨rfl, rfl, rfl, id⟩

theorem trans {first middle last : Binding} (begins : first.AtMost middle) (goes : middle.AtMost last) :
    first.AtMost last := by
  refine ⟨goes.name.trans begins.name, goes.ty.trans begins.ty, goes.isFinal.trans begins.isFinal, ?_⟩
  intro initialized
  exact goes.initialized (begins.initialized initialized)

end Binding.AtMost

namespace Binding.Grows

theorem refl (binding : Binding) : Binding.Grows binding binding :=
  ⟨.refl binding, fun _ => rfl⟩

theorem trans {first middle last : Binding} (begins : first.Grows middle) (goes : middle.Grows last) :
    first.Grows last := by
  refine ⟨begins.toAtMost.trans goes.toAtMost, ?_⟩
  intro final
  have same := begins.final final
  rw [goes.final (same ▸ final), same]

/-- Only what is not final can be assigned to. -/
theorem assigned {first last : Binding} (grows : first.Grows last) (changeable : last.isFinal = false)
    (value : Option Text) : first.Grows (last.assigned value) := by
  refine ⟨⟨grows.name, grows.ty, grows.isFinal, fun _ => rfl⟩, ?_⟩
  intro final
  rw [← grows.isFinal, changeable] at final
  cases final

private theorem slot_trans {first middle last : Option Binding} (begins : Option.Rel Binding.Grows first middle)
    (goes : Option.Rel Binding.Grows middle last) : Option.Rel Binding.Grows first last := by
  cases begins with
  | none =>
    cases goes
    exact .none
  | some begins =>
    cases goes with
    | some goes => exact .some (begins.trans goes)

end Binding.Grows

namespace Scopes.Grows

variable {first middle last after : Scopes}

theorem refl (scopes : Scopes) : Scopes.Grows scopes scopes := by
  refine ⟨Nat.le_refl _, ?_⟩
  intro height _ name
  cases scopes.slot height name with
  | none => exact .none
  | some binding => exact .some (.refl binding)

theorem trans (begins : first.Grows middle) (goes : middle.Grows last) : first.Grows last := by
  refine ⟨Nat.le_trans begins.depth goes.depth, ?_⟩
  intro height within name
  have later := goes.slots height (Nat.le_trans within begins.depth) name
  exact Binding.Grows.slot_trans (begins.slots height within name) later

theorem opened (grows : first.Grows last) : first.Grows last.opened := by
  refine ⟨Nat.le_succ_of_le grows.depth, ?_⟩
  intro height within name
  rw [Scopes.slot_opened]
  exact grows.slots height within name

/-- A scope above all those of the outside may be closed. -/
theorem close (grows : first.Grows last) (closed : last.close = .ok after) (remains : first.depth ≤ after.depth) :
    first.Grows after := by
  refine ⟨remains, ?_⟩
  intro height within name
  rw [Scopes.slot_of_close closed name (Nat.le_trans within remains)]
  exact grows.slots height within name

/-- A scope above all those of the outside may get a new binding. -/
theorem declared (grows : first.Grows last) (inside : first.depth < last.depth) (binding : Binding) :
    first.Grows { last with current := binding :: last.current } := by
  refine ⟨grows.depth, ?_⟩
  intro height within name
  rw [Scopes.slot_of_declared, if_neg]
  · exact grows.slots height within name
  · intro ⟨top, _⟩
    omega

theorem assign (grows : first.Grows last) {name : Text} {target : Binding}
    (found : last.lookup name = some target) (changeable : target.isFinal = false) (value : Option Text) :
    first.Grows (last.assign name value) := by
  obtain ⟨place, resolves⟩ := Scopes.lookup_eq_some_iff.mp found
  obtain ⟨written, kept⟩ := Scopes.slot_assign_of_resolves value resolves
  refine ⟨by rw [Scopes.depth_assign]; exact grows.depth, ?_⟩
  intro height within other
  have before := grows.slots height within other
  by_cases same : other = name
  · subst same
    by_cases here : height = place
    · subst here
      rw [resolves.bound] at before
      rw [written]
      cases initial : first.slot height other with
      | none =>
        rw [initial] at before
        cases before
      | some binding =>
        rw [initial] at before
        exact .some ((Option.rel_some_some.mp before).assigned changeable value)
    · rwa [kept height here]
  · rwa [Scopes.slot_assign_of_ne value same]

end Scopes.Grows
end Linewise
