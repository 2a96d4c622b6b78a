import Linewise.Check.Program
import Linewise.Proofs.VariableRows
import Mathlib.Data.List.Nodup

/-! What the global lines declare can be read off their text. Where the lines are accepted, the
global scope holds just that, and assignments in between have initialized some of it. -/

namespace Linewise

def Declared.binding (declared : Declared) : Binding :=
  ⟨declared.fragment.name, declared.ty, declared.isFinal, declared.fragment.value?.isSome, none⟩

def Scopes.ofDeclared (all : List Declared) : Scopes :=
  ⟨(all.map Declared.binding).reverse, []⟩

structure Assignable (all : List Declared) (name : Text) : Prop where
  known : ∃ declared ∈ all, declared.fragment.name = name
  changeable : ∀ declared ∈ all, declared.fragment.name = name → declared.isFinal = false

/-- The scopes hold these variables and no others, each under a name of its own. -/
structure Scopes.Holds (scopes : Scopes) (all : List Declared) : Prop where
  compares : (Scopes.ofDeclared all).Compares Binding.AtMost scopes
  distinct : (all.map (·.fragment.name)).Nodup

namespace Scopes
open Run

variable {all : List Declared} {scopes after : Scopes} {name : Text}

theorem mem_of_lookup_ofDeclared {binding : Binding} (found : (ofDeclared all).lookup name = some binding) :
    ∃ declared ∈ all, declared.binding = binding := by
  obtain ⟨scope, member, held⟩ := List.exists_of_findSome?_eq_some found
  cases List.mem_singleton.mp member
  have bound := List.mem_of_find?_eq_some held
  exact List.mem_map.mp (List.mem_reverse.mp bound)

private theorem name_ne_of_contains (free : (ofDeclared all).current.contains name = false) :
    ∀ declared ∈ all, declared.fragment.name ≠ name := by
  intro declared member same
  have unbound := List.find?_eq_none.mp (Scope.get?_eq_none_iff.mpr free)
  exact unbound declared.binding (List.mem_reverse.mpr (List.mem_map_of_mem member)) (beq_iff_eq.mpr same)

theorem ofDeclared_append (all : List Declared) (declared : Declared) :
    ofDeclared (all ++ [declared]) =
      { ofDeclared all with current := declared.binding :: (ofDeclared all).current } := by
  simp [ofDeclared]

namespace Holds

theorem nil : Scopes.Holds {} [] :=
  ⟨.refl Binding.AtMost.overlooks {}, .nil⟩

private theorem declare {isFinal : Bool} {ty : Ty} {fragment : Fragment} (holds : scopes.Holds all)
    (made : Check.declare isFinal ty fragment scopes = .ok after) :
    after.Holds (all ++ [⟨isFinal, ty, fragment⟩]) := by
  obtain ⟨stored, fresh, rfl⟩ := VariableEffects.exists_of_declare made
  constructor
  · rw [ofDeclared_append]
    exact holds.compares.declared rfl ⟨rfl, rfl, rfl, id⟩
  · rw [holds.compares.contains_current] at fresh
    rw [List.map_append, List.nodup_append]
    refine ⟨holds.distinct, List.pairwise_singleton _ _, ?_⟩
    intro first earlier last now
    obtain ⟨declared, member, rfl⟩ := List.mem_map.mp earlier
    cases List.mem_singleton.mp now
    exact name_ne_of_contains fresh declared member

private theorem declarations {isFinal : Bool} {ty : Ty} {fragments : List Fragment} (holds : scopes.Holds all)
    (passed : ending (fragments.forM fun fragment => step (Check.declare isFinal ty fragment)) scopes =
      (.ok (), after)) : after.Holds (all ++ fragments.map (Declared.mk isFinal ty)) := by
  induction fragments generalizing all scopes with
  | nil =>
    cases passed
    rwa [List.map_nil, List.append_nil]
  | cons fragment fragments ih =>
    obtain ⟨middle, first, rest⟩ := ending_forM_cons_eq_ok_iff.mp passed
    have later := ih (holds.declare (ending_step_eq_ok_iff.mp first)) rest
    rwa [List.append_assoc] at later

/-- A name tells which of the variables it is. -/
theorem eq_of_name {declared other : Declared} (holds : scopes.Holds all) (member : declared ∈ all)
    (again : other ∈ all) (same : declared.fragment.name = other.fragment.name) : declared = other :=
  List.inj_on_of_nodup_map holds.distinct member again same

/-- The binding that is found was declared once, so all that is declared of its name is like it. -/
theorem assignable {target : Binding} (holds : scopes.Holds all) (found : scopes.lookup name = some target)
    (changeable : target.isFinal = false) : Assignable all name := by
  have slots := holds.compares.lookup name
  rw [found] at slots
  cases known : (ofDeclared all).lookup name with
  | none =>
    rw [known] at slots
    cases slots
  | some binding =>
    rw [known] at slots
    obtain ⟨declared, member, rfl⟩ := mem_of_lookup_ofDeclared known
    have named : declared.fragment.name = name := name_of_lookup known
    refine ⟨⟨declared, member, named⟩, ?_⟩
    intro other again same
    cases holds.eq_of_name again member (same.trans named.symm)
    exact (Option.rel_some_some.mp slots).isFinal.symm.trans changeable

end Holds
end Scopes

namespace GlobalScope
open Run

variable {all : List Declared} {line : Text} {lines : List Text} {scopes after : Scopes}

theorem exists_of_globalLine (passed : ending (Check.globalLine line) scopes = (.ok (), after)) :
    (Statement.ofLine line = some .declaration ∨ Statement.ofLine line = some .assignment) ∧
      ending (Check.variableLine line) scopes = (.ok (), after) := by
  obtain ⟨statement, middle, read, passed⟩ := ending_bind_eq_ok_iff.mp passed
  obtain ⟨known, rfl⟩ := ending_read_eq_ok_iff.mp read
  cases statement with
  | declaration => exact ⟨Or.inl known, passed⟩
  | assignment => exact ⟨Or.inr known, passed⟩
  | methodHead _ _ | call _ _ | blockHead _ | blockEnd | ret => cases passed

/-- A line that is accepted adds what it declares, and assigns to nothing that is final. -/
theorem line_holds (holds : scopes.Holds all) (passed : ending (Check.globalLine line) scopes = (.ok (), after)) :
    after.Holds (all ++ declaredIn line) ∧ ∀ fragment ∈ assignedIn line, Assignable all fragment.name := by
  obtain ⟨known, passed⟩ := exists_of_globalLine passed
  rcases known with known | known
  · obtain ⟨isFinal, ty, fragments, declared, reads⟩ := VariableRows.of_declaration known
    rw [reads] at passed
    rw [declared, assignedIn_of_ne (by simp [known])]
    exact ⟨holds.declarations passed, nofun⟩
  · rw [VariableRows.of_assignment known] at passed
    obtain ⟨compares, found⟩ := VariableRows.found_of_assignments (.refl Binding.AtMost.overlooks scopes) passed
    constructor
    · rw [declaredIn_of_ne (by simp [known]), List.append_nil]
      exact ⟨holds.compares.trans compares, holds.distinct⟩
    · intro fragment member
      obtain ⟨target, there, changeable⟩ := found fragment member
      exact holds.assignable there changeable

theorem lines_hold (holds : scopes.Holds all) (passed : ending (lines.forM Check.globalLine) scopes = (.ok (), after)) :
    after.Holds (all ++ lines.flatMap declaredIn) := by
  induction lines generalizing all scopes with
  | nil =>
    cases passed
    rwa [List.flatMap_nil, List.append_nil]
  | cons line lines ih =>
    obtain ⟨middle, first, rest⟩ := ending_forM_cons_eq_ok_iff.mp passed
    have later := ih (line_holds holds first).1 rest
    rwa [List.append_assoc] at later

theorem ending_globals_eq_ok_iff :
    ending (Check.globals lines) scopes = (.ok (), after) ↔
      ending (lines.forM Check.globalLine) scopes = (.ok (), after) := by
  constructor
  · intro passed
    obtain ⟨_, middle, checked, passed⟩ := ending_bind_eq_ok_iff.mp passed
    cases passed
    exact checked
  · intro checked
    exact ending_bind_of_ok checked

theorem globals_hold (passed : ending (Check.globals lines) {} = (.ok (), after)) :
    after.Holds (lines.flatMap declaredIn) :=
  lines_hold .nil (ending_globals_eq_ok_iff.mp passed)

/-- Each line is accepted where the scope holds what the lines before it declare. -/
theorem exists_of_globals {before rest : List Text}
    (passed : ending (Check.globals (before ++ line :: rest)) {} = (.ok (), after)) :
    ∃ middle next, Scopes.Holds middle (before.flatMap declaredIn) ∧
      ending (Check.globalLine line) middle = (.ok (), next) := by
  have split : (before ++ line :: rest).forM Check.globalLine =
      before.forM Check.globalLine >>= fun _ => (line :: rest).forM Check.globalLine := List.forM_append
  have checked := ending_globals_eq_ok_iff.mp passed
  rw [split] at checked
  obtain ⟨_, middle, first, others⟩ := ending_bind_eq_ok_iff.mp checked
  obtain ⟨next, here, _⟩ := ending_forM_cons_eq_ok_iff.mp others
  exact ⟨middle, next, lines_hold .nil first, here⟩

end GlobalScope
end Linewise
