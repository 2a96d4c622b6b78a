import Linewise.Proofs.ScopeChanges
import Mathlib.Data.List.Nodup

/-! Properties of bindings that no check can break. It is enough that each binding a check makes
has the property, where the text it stores is a literal or comes from a binding that has the
property already. -/

namespace Linewise

/-- What is stored of a value that a type takes: a literal of the type, or the text of a variable
that stands for it. -/
inductive Ty.Takes (target : Ty) (holds : Binding → Prop) : Option Text → Prop where
  | literal {t} (written : Literal.isOf target t = true) : Takes target holds (some t)
  | handedOn {source} (held : holds source) (stands : source.ty.standsFor target = true)
      (initialized : source.isInitialized = true) : Takes target holds source.value

/-- All ways to make a binding or to write to one lead to the property. -/
structure Binding.Lasting (allowed : Parameter → Prop) (holds : Binding → Prop) : Prop where
  parameter : ∀ parameter, allowed parameter → holds (.ofParameter parameter)
  unset : ∀ name ty, isIdentifier name = true → holds ⟨name, ty, false, false, none⟩
  valued : ∀ name ty isFinal stored, isIdentifier name = true → ty.Takes holds stored →
    holds ⟨name, ty, isFinal, true, stored⟩
  assigned : ∀ target stored, holds target → target.isFinal = false → target.ty.Takes holds stored →
    holds (target.assigned stored)

def Scopes.Hold (scopes : Scopes) (holds : Binding → Prop) : Prop :=
  ∀ scope ∈ scopes.frames, ∀ binding ∈ scope, holds binding

def Scopes.Distinct (scopes : Scopes) : Prop :=
  ∀ scope ∈ scopes.frames, (scope.map Binding.name).Nodup

namespace Scope

variable {scope : Scope} {name : Text} {value : Option Text} {binding : Binding}

theorem map_name_assign (name : Text) (value : Option Text) (scope : Scope) :
    (scope.assign name value).map Binding.name = scope.map Binding.name := by
  induction scope with
  | nil => rfl
  | cons first scope ih =>
    unfold assign
    split
    · rfl
    · rw [List.map_cons, List.map_cons, ih]

theorem exists_of_mem_assign (member : binding ∈ scope.assign name value) :
    binding ∈ scope ∨ ∃ target, scope.get? name = some target ∧ binding = target.assigned value := by
  induction scope with
  | nil => cases member
  | cons first scope ih =>
    unfold assign at member
    rw [get?_cons]
    by_cases same : first.name = name
    · rw [if_pos (beq_iff_eq.mpr same)] at member
      rw [if_pos same]
      rcases List.mem_cons.mp member with written | kept
      · exact Or.inr ⟨first, rfl, written⟩
      · exact Or.inl (List.mem_cons_of_mem first kept)
    · rw [if_neg (by simpa using same)] at member
      rw [if_neg same]
      rcases List.mem_cons.mp member with rfl | kept
      · exact Or.inl List.mem_cons_self
      · exact (ih kept).imp (List.mem_cons_of_mem first) id

theorem not_mem_map_name (fresh : scope.contains name = false) : name ∉ scope.map Binding.name := by
  intro member
  obtain ⟨binding, bound, same⟩ := List.mem_map.mp member
  exact List.find?_eq_none.mp (get?_eq_none_iff.mpr fresh) binding bound (beq_iff_eq.mpr same)

/-- Where no name is bound twice, each binding is the one that its name finds. -/
theorem get?_eq_some_iff (distinct : (scope.map Binding.name).Nodup) (bound : binding ∈ scope) :
    scope.get? name = some binding ↔ name = binding.name := by
  constructor
  · intro found
    exact (name_of_get? found).symm
  · rintro rfl
    cases found : scope.get? binding.name with
    | none => exact absurd (List.mem_map_of_mem bound) (not_mem_map_name (get?_eq_none_iff.mp found))
    | some other =>
      have held := List.mem_of_find?_eq_some found
      rw [List.inj_on_of_nodup_map distinct held bound (name_of_get? found)]

end Scope

namespace Scopes

variable {allowed : Parameter → Prop} {holds : Binding → Prop} {scopes after : Scopes} {name : Text}
  {value : Option Text}

private theorem exists_of_mem_assignIn {frames : List Scope} {scope : Scope}
    (member : scope ∈ assignIn name value frames) :
    scope ∈ frames ∨ ∃ old ∈ frames, scope = old.assign name value ∧
      frames.findSome? (fun scope => scope.get? name) = old.get? name := by
  induction frames with
  | nil => cases member
  | cons first outer ih =>
    rw [assignIn] at member
    rw [List.findSome?_cons]
    cases found : first.get? name with
    | some target =>
      rw [if_pos (by rw [Scope.contains, found]; rfl)] at member
      rcases List.mem_cons.mp member with written | kept
      · exact Or.inr ⟨first, List.mem_cons_self, written, found.symm⟩
      · exact Or.inl (List.mem_cons_of_mem first kept)
    | none =>
      rw [if_neg (by simp [Scope.get?_eq_none_iff.mp found])] at member
      rcases List.mem_cons.mp member with rfl | kept
      · exact Or.inl List.mem_cons_self
      · rcases ih kept with same | ⟨old, inside, written, first⟩
        · exact Or.inl (List.mem_cons_of_mem _ same)
        · exact Or.inr ⟨old, List.mem_cons_of_mem _ inside, written, first⟩

/-- A scope that is not as it was is the one in which the name was found. -/
theorem exists_of_mem_assign {scope : Scope} (member : scope ∈ (scopes.assign name value).frames) :
    scope ∈ scopes.frames ∨
      ∃ old ∈ scopes.frames, scope = old.assign name value ∧ scopes.lookup name = old.get? name := by
  rw [frames_assign] at member
  exact exists_of_mem_assignIn member

theorem Hold.of_lookup (held : scopes.Hold holds) {binding : Binding} (found : scopes.lookup name = some binding) :
    holds binding := by
  obtain ⟨scope, member, bound⟩ := List.exists_of_findSome?_eq_some found
  exact held scope member binding (List.mem_of_find?_eq_some bound)

theorem Hold.takes (held : scopes.Hold holds) {target : Ty} {t : Text} {stored : Option Text}
    (valued : Check.value scopes target t = .ok stored) : target.Takes holds stored := by
  dsimp only [Check.value] at valued
  cases found : scopes.lookup t.trim with
  | none =>
    rw [found] at valued
    dsimp only at valued
    split at valued
    · next written =>
      cases valued
      exact .literal written
    · split at valued <;> cases valued
  | some source =>
    rw [found] at valued
    dsimp only at valued
    cases stands : source.ty.standsFor target with
    | false => simp [stands] at valued
    | true =>
      cases initialized : source.isInitialized with
      | false => simp [stands, initialized] at valued
      | true =>
        simp only [stands, initialized, Bool.not_true, Bool.false_eq_true, if_false] at valued
        cases valued
        exact .handedOn (held.of_lookup found) stands initialized

private theorem Hold.declared (held : scopes.Hold holds) {binding : Binding} (new : holds binding) :
    Hold { scopes with current := binding :: scopes.current } holds := by
  intro scope member other bound
  rcases List.mem_cons.mp member with rfl | outer
  · rcases List.mem_cons.mp bound with rfl | old
    · exact new
    · exact held scopes.current List.mem_cons_self other old
  · exact held scope (List.mem_cons_of_mem _ outer) other bound

private theorem Hold.assigned (held : scopes.Hold holds) {target : Binding}
    (found : scopes.lookup name = some target) (new : holds (target.assigned value)) :
    (scopes.assign name value).Hold holds := by
  intro scope member binding bound
  rcases exists_of_mem_assign member with same | ⟨old, inside, rfl, first⟩
  · exact held scope same binding bound
  · rcases Scope.exists_of_mem_assign bound with kept | ⟨written, there, rfl⟩
    · exact held old inside binding kept
    · rw [found, there] at first
      cases first
      exact new

namespace Change

theorem hold (change : scopes.Change allowed after) (lasting : Binding.Lasting allowed holds)
    (held : scopes.Hold holds) : after.Hold holds := by
  cases change with
  | opened =>
    intro scope member binding bound
    rcases List.mem_cons.mp member with rfl | outer
    · cases bound
    · exact held scope outer binding bound
  | closed closed =>
    obtain ⟨removed, same⟩ := close_eq_ok_iff.mp closed
    intro scope member
    exact held scope (same ▸ List.mem_cons_of_mem removed member)
  | parameter known fresh => exact held.declared (lasting.parameter _ known)
  | @declared isFinal ty stored fragment named fresh changeable stores =>
    apply held.declared
    cases given : fragment.value? with
    | none =>
      simp only [Fragment.Stores, given] at stores
      rw [stores, changeable given]
      exact lasting.unset fragment.name ty named
    | some t =>
      simp only [Fragment.Stores, given] at stores
      exact lasting.valued fragment.name ty isFinal stored named (held.takes stores.2)
  | @assigned target stored fragment found changeable given stores =>
    apply held.assigned found
    obtain ⟨t, given⟩ := Option.ne_none_iff_exists'.mp given
    simp only [Fragment.Stores, given] at stores
    exact lasting.assigned target stored (held.of_lookup found) changeable (held.takes stores.2)

private theorem distinct_declared (distinct : scopes.Distinct) {binding : Binding}
    (fresh : scopes.current.contains binding.name = false) :
    Distinct { scopes with current := binding :: scopes.current } := by
  intro scope member
  rcases List.mem_cons.mp member with rfl | outer
  · rw [List.map_cons, List.nodup_cons]
    exact ⟨Scope.not_mem_map_name fresh, distinct scopes.current List.mem_cons_self⟩
  · exact distinct scope (List.mem_cons_of_mem _ outer)

theorem distinct (change : scopes.Change allowed after) (distinct : scopes.Distinct) : after.Distinct := by
  cases change with
  | opened =>
    intro scope member
    rcases List.mem_cons.mp member with rfl | outer
    · exact List.nodup_nil
    · exact distinct scope outer
  | closed closed =>
    obtain ⟨removed, same⟩ := close_eq_ok_iff.mp closed
    intro scope member
    exact distinct scope (same ▸ List.mem_cons_of_mem removed member)
  | parameter known fresh => exact distinct_declared distinct fresh
  | declared named fresh changeable stores => exact distinct_declared distinct fresh
  | assigned found changeable given stores =>
    intro scope member
    rcases exists_of_mem_assign member with same | ⟨old, inside, rfl, -⟩
    · exact distinct scope same
    · rw [Scope.map_name_assign]
      exact distinct old inside

end Change
end Scopes

namespace ScopeChanges

variable {allowed : Parameter → Prop} {holds : Binding → Prop} {steps : List Step}

/-- A lasting property is one of all bindings that sessions come to. -/
theorem session_holds (regular : ∀ step ∈ steps, step.Regular allowed) (lasting : Binding.Lasting allowed holds) :
    (session steps {}).2.Hold holds := by
  have none : Scopes.Hold {} holds := by
    intro scope member binding bound
    cases List.mem_singleton.mp member
    cases bound
  exact (session_reaches regular .refl).keeps (fun _ _ change => change.hold lasting) none

theorem session_distinct (regular : ∀ step ∈ steps, step.Regular allowed) : (session steps {}).2.Distinct := by
  have none : Scopes.Distinct {} := by
    intro scope member
    cases List.mem_singleton.mp member
    exact List.nodup_nil
  exact (session_reaches regular .refl).keeps (fun _ _ change => change.distinct) none

end ScopeChanges
end Linewise
