import Linewise.Check.Body
import Linewise.Proofs.NameReference
import Linewise.Proofs.ScopeComparison
import Linewise.Proofs.VariableEffects

/-! A line about variables is a row of fragments that take effect one after the other. Where
the whole row is accepted, no two of its declarations are of one name, and all that it assigns
to was there before and can be changed. -/

namespace Linewise

@[simp] theorem declaredIn_trim (line : Text) : declaredIn line.trim = declaredIn line := by
  simp [declaredIn]

@[simp] theorem assignedIn_trim (line : Text) : assignedIn line.trim = assignedIn line := by
  simp [assignedIn]

namespace VariableRows
open Run

variable {α : Type} {line : Text} {scopes after : Scopes}

theorem of_declaration (known : Statement.ofLine line = some .declaration) :
    ∃ isFinal ty, ∃ fragments : List Fragment, declaredIn line = fragments.map (Declared.mk isFinal ty) ∧
      Check.variableLine line = fragments.forM fun fragment => step (Check.declare isFinal ty fragment) := by
  obtain ⟨isFinal, ty, rest, typed⟩ := Statement.typed?_of_ofLine known
  refine ⟨isFinal, ty, VariableLine.fragmentsOf rest, declaredIn_of_typed? known typed, ?_⟩
  rw [Check.variableLine, Statement.ofLine?_of_typed? typed]

theorem of_assignment (known : Statement.ofLine line = some .assignment) :
    Check.variableLine line = (assignedIn line).forM fun fragment => step (Check.assign fragment) := by
  obtain ⟨name, rest, own⟩ := Statement.ownName?_of_ofLine known
  rw [Check.variableLine, Statement.ofLine?_of_ownName? own, assignedIn_of_ofLine known]

/-- The fragments of a declaration are what stands between its commas. -/
theorem of_pieces_declared {isFinal : Bool} {ty : Ty} {pieces : List Text}
    (read : VariableLine.ofLine? line = some (.declaration isFinal ty (pieces.map Fragment.ofText))) :
    Check.variableLine line = pieces.forM fun piece => step (Check.declare isFinal ty (Fragment.ofText piece)) := by
  rw [Check.variableLine, read]
  exact forM_map_congr fun _ _ => rfl

theorem of_pieces_assigned {pieces : List Text}
    (read : VariableLine.ofLine? line = some (.assignment (pieces.map Fragment.ofText))) :
    Check.variableLine line = pieces.forM fun piece => step (Check.assign (Fragment.ofText piece)) := by
  rw [Check.variableLine, read]
  exact forM_map_congr fun _ _ => rfl

theorem contains_cons_eq_false {binding : Binding} {scope : Scope} {name : Text}
    (fresh : Scope.contains (binding :: scope) name = false) :
    binding.name ≠ name ∧ scope.contains name = false := by
  rw [← Scope.get?_eq_none_iff, Scope.get?_cons] at fresh
  split at fresh
  · cases fresh
  · next apart => exact ⟨apart, Scope.get?_eq_none_iff.mp fresh⟩

/-- Steps that each bind a name which is free in the current scope bind no name twice. -/
theorem distinct {items : List α} {each : α → Scopes → Except Fault Scopes} (name : α → Text)
    (binds : ∀ item scopes last, each item scopes = .ok last → ∃ binding,
      scopes.current.contains (name item) = false ∧ binding.name = name item ∧
        last = { scopes with current := binding :: scopes.current })
    (passed : ending (items.forM fun item => step (each item)) scopes = (.ok (), after)) :
    (items.map name).Nodup ∧ ∀ item ∈ items, scopes.current.contains (name item) = false := by
  induction items generalizing scopes with
  | nil => exact ⟨.nil, nofun⟩
  | cons item items ih =>
    obtain ⟨middle, first, rest⟩ := ending_forM_cons_eq_ok_iff.mp passed
    obtain ⟨binding, fresh, named, rfl⟩ := binds item scopes middle (ending_step_eq_ok_iff.mp first)
    obtain ⟨apart, free⟩ := ih rest
    have unlike : ∀ other ∈ items, name item ≠ name other ∧ scopes.current.contains (name other) = false := by
      intro other member
      obtain ⟨differs, unheld⟩ := contains_cons_eq_false (free other member)
      exact ⟨named ▸ differs, unheld⟩
    constructor
    · rw [List.map_cons, List.nodup_cons]
      refine ⟨?_, apart⟩
      intro again
      obtain ⟨other, member, same⟩ := List.mem_map.mp again
      exact (unlike other member).1 same.symm
    · intro other member
      rcases List.mem_cons.mp member with rfl | later
      · exact fresh
      · exact (unlike other later).2

theorem distinct_declared (known : Statement.ofLine line = some .declaration)
    (passed : ending (Check.variableLine line) scopes = (.ok (), after)) :
    ((declaredIn line).map (·.fragment.name)).Nodup := by
  obtain ⟨isFinal, ty, fragments, declared, reads⟩ := of_declaration known
  rw [reads] at passed
  have binds : ∀ fragment scopes last, Check.declare isFinal ty fragment scopes = .ok last → ∃ binding,
      scopes.current.contains fragment.name = false ∧ binding.name = fragment.name ∧
        last = { scopes with current := binding :: scopes.current } := by
    intro fragment scopes last made
    obtain ⟨stored, fresh, same⟩ := VariableEffects.exists_of_declare made
    exact ⟨_, fresh, rfl, same⟩
  have apart := (distinct Fragment.name binds passed).1
  rw [declared, List.map_map]
  exact apart

theorem distinct_parameters {parameters : List Parameter}
    (passed : ending (Check.parameters parameters) scopes = (.ok (), after)) :
    (parameters.map Parameter.name).Nodup := by
  refine (distinct Parameter.name ?_ passed).1
  intro parameter scopes last made
  obtain ⟨fresh, same⟩ := Scopes.declare_eq_ok_iff.mp made
  exact ⟨_, fresh, rfl, same⟩

/-- An assignment leaves all that is bound where it is, so each fragment writes to a variable
that was there before the first of them. -/
theorem found_of_assignments {first : Scopes} {fragments : List Fragment}
    (compares : first.Compares Binding.AtMost scopes)
    (passed : ending (fragments.forM fun fragment => step (Check.assign fragment)) scopes = (.ok (), after)) :
    first.Compares Binding.AtMost after ∧ ∀ fragment ∈ fragments, ∃ target,
      first.lookup fragment.name = some target ∧ target.isFinal = false := by
  induction fragments generalizing scopes with
  | nil =>
    cases passed
    exact ⟨compares, nofun⟩
  | cons fragment fragments ih =>
    obtain ⟨middle, begins, rest⟩ := ending_forM_cons_eq_ok_iff.mp passed
    obtain ⟨target, stored, found, changeable, rfl⟩ :=
      VariableEffects.exists_of_assign (ending_step_eq_ok_iff.mp begins)
    have grows := (Scopes.Grows.refl scopes).assign found changeable stored
    obtain ⟨later, others⟩ := ih (compares.trans (grows.compares (Scopes.depth_assign _ _ _))) rest
    refine ⟨later, ?_⟩
    intro other member
    rcases List.mem_cons.mp member with rfl | member
    · have slots := compares.lookup other.name
      rw [found] at slots
      cases known : first.lookup other.name with
      | none =>
        rw [known] at slots
        cases slots
      | some binding =>
        rw [known] at slots
        exact ⟨binding, rfl, (Option.rel_some_some.mp slots).isFinal ▸ changeable⟩
    · exact others other member

end VariableRows
end Linewise
