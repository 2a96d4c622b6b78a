import Linewise.Proofs.MethodRegistry
import Linewise.Proofs.OuterScopes
import Linewise.Proofs.StoredValues

/-! Where all global variables are initialized, the order of the methods is free. A method that
is accepted can then change nothing but stored values, so each method is checked as if no other
had been checked before it, and the program is accepted where all its methods are. -/

namespace Linewise

def Outline.IsAccepted (outline : Outline) : Prop :=
  ∃ verdict, (Check.outline outline {}).result = .ok verdict

/-- Each method is accepted from these scopes, without any other being checked before it. -/
def MethodTable.PassesAlone (table : MethodTable) (scopes : Scopes) : Prop :=
  ∀ checked ∈ table.methods, (Check.method table checked scopes).result = .ok ()

def Scope.IsInitialized (scope : Scope) : Prop :=
  ∀ name binding, scope.get? name = some binding → binding.isInitialized = true

/-- Tables that hold the same methods find the same under a name. -/
theorem MethodTable.Registered.extendedBy_of_perm {table other : MethodTable} (registered : table.Registered)
    (again : other.Registered) (same : table.methods.Perm other.methods) : table.ExtendedBy other := by
  intro name method known
  obtain ⟨member, named⟩ := registered.get?_eq_some_iff.mp known
  exact ⟨method, again.get?_eq_some_iff.mpr ⟨same.mem_iff.mp member, named⟩, rfl⟩

namespace MethodOrder
open Run CheckComparison OuterScopes StoredValues

variable {table other : MethodTable} {left scopes after last : Scopes} {globals : List Text}

def Full (scopes : Scopes) : Prop :=
  ∀ height name binding, scopes.slot height name = some binding → binding.isInitialized = true

private theorem compares_of_grown (full : Full left) (compares : left.Compares Binding.SameButValue scopes)
    (grown : scopes.Compares Binding.AtMost after) : left.Compares Binding.SameButValue after := by
  refine ⟨grown.depth.trans compares.depth, ?_⟩
  intro height name
  have earlier := compares.slots height name
  have later := grown.slots height name
  have initialized := full height name
  generalize left.slot height name = first, scopes.slot height name = middle, after.slot height name = final
    at earlier later initialized ⊢
  cases earlier with
  | none =>
    cases later
    exact .none
  | some same =>
    cases later with
    | some more =>
      -- growing only initializes, and nothing is left to initialize
      have begins := initialized _ rfl
      have ends := more.initialized (same.isInitialized.trans begins)
      exact .some ⟨more.name.trans same.name, more.ty.trans same.ty, more.isFinal.trans same.isFinal,
        ends.trans begins.symm⟩

private theorem compares_of_method {checked : Method} (full : Full left)
    (compares : left.Compares Binding.SameButValue scopes)
    (passed : ending (Check.method table checked) scopes = (.ok (), after)) :
    left.Compares Binding.SameButValue after := by
  have above := (method_keeps table checked scopes).of_ok rfl passed
  exact compares_of_grown full compares (above.grows.compares above.depth)

/-- The methods of a row pass one after the other where each of them passes alone. The scopes
that one of them leaves differ in values only, so the next cannot tell that it was there. -/
theorem eachMethod_passes_iff (full : Full left) (extended : table.ExtendedBy other) (reverse : other.ExtendedBy table)
    (methods : List Method) (compares : left.Compares Binding.SameButValue scopes) :
    (∃ last, ending (Check.eachMethod other methods) scopes = (.ok (), last)) ↔
      ∀ checked ∈ methods, (Check.method table checked left).result = .ok () := by
  induction methods generalizing scopes with
  | nil => exact ⟨fun _ => nofun, fun _ => ⟨scopes, rfl⟩⟩
  | cons checked methods ih =>
    have follows := method_follows sameButValue_overlooks extended (fun _ => reverse) checked
    have same : (ending (Check.method other checked) scopes).1 = (Check.method table checked left).result :=
      (follows.same compares).1
    constructor
    · intro ⟨last, passed⟩
      obtain ⟨after, first, rest⟩ := ending_eachMethod_cons_eq_ok_iff.mp passed
      have others := (ih (compares_of_method full compares first)).mp ⟨last, rest⟩
      rw [first] at same
      intro found member
      rcases List.mem_cons.mp member with rfl | member
      · exact same.symm
      · exact others found member
    · intro alone
      have first : ending (Check.method other checked) scopes =
          (.ok (), (ending (Check.method other checked) scopes).2) :=
        Prod.ext (same.trans (alone checked (by simp))) rfl
      have kept := compares_of_method full compares first
      obtain ⟨last, rest⟩ := (ih kept).mpr fun found member => alone found (by simp [member])
      exact ⟨last, ending_eachMethod_cons_eq_ok_iff.mpr ⟨_, first, rest⟩⟩

private theorem full_of_globals (declared : ending (Check.globals globals) {} = (.ok (), left))
    (initialized : left.global.IsInitialized) : Full left := by
  have start : AtDepth 0 {} := rfl
  have level : left.depth = 0 := (globals_level globals 0).of_ok start declared
  intro height name binding bound
  have bottom : height = 0 := Nat.le_zero.mp (level ▸ Scopes.height_le_of_slot bound)
  subst bottom
  rw [Scopes.slot_zero] at bound
  exact initialized name binding bound

private theorem eachMethod_of_outline {verdict : Verdict} (declared : ending (Check.globals globals) {} = (.ok (), left))
    (accepted : (Check.outline ⟨globals, table⟩ {}).result = .ok verdict) :
    ending (Check.eachMethod table table.methods) left = (.ok (), verdict.scopes) := by
  have ended : ending (Check.outline ⟨globals, table⟩) {} =
      (.ok verdict, (Check.outline ⟨globals, table⟩ {}).state) := Prod.ext accepted rfl
  obtain ⟨_, again, checked, same⟩ := ending_outline_eq_ok_iff.mp ended
  cases declared.symm.trans again
  rwa [same]

private theorem isAccepted_iff (declared : ending (Check.globals globals) {} = (.ok (), left)) :
    Outline.IsAccepted ⟨globals, table⟩ ↔
      ∃ last, ending (Check.eachMethod table table.methods) left = (.ok (), last) := by
  constructor
  · intro ⟨verdict, accepted⟩
    exact ⟨verdict.scopes, eachMethod_of_outline declared accepted⟩
  · intro ⟨last, checked⟩
    exact ⟨_, congrArg Prod.fst (ending_outline_eq_ok_iff.mpr ⟨left, declared, checked, rfl⟩)⟩

private theorem compares_of_outline {verdict : Verdict} (full : Full left)
    (declared : ending (Check.globals globals) {} = (.ok (), left))
    (accepted : (Check.outline ⟨globals, table⟩ {}).result = .ok verdict) :
    left.Compares Binding.SameButValue verdict.scopes := by
  have above := (eachMethod_keeps table _ left).of_ok (.refl left) (eachMethod_of_outline declared accepted)
  exact compares_of_grown full (.refl sameButValue_overlooks left) (above.grows.compares above.depth)

private theorem same_of_same {first second third : Option Binding} (begins : Option.Rel Binding.SameButValue first second)
    (goes : Option.Rel Binding.SameButValue first third) : Option.Rel Binding.SameButValue second third := by
  cases begins with
  | none =>
    cases goes
    exact .none
  | some same =>
    cases goes with
    | some alike =>
      exact .some ⟨alike.name.trans same.name.symm, alike.ty.trans same.ty.symm,
        alike.isFinal.trans same.isFinal.symm, alike.isInitialized.trans same.isInitialized.symm⟩

/-- The same methods are accepted in any order where the global lines leave nothing to be
initialized: each has to pass by itself from what these lines leave. Programs that differ in
the order only leave the same global variables, but for values. -/
theorem order_of_methods_is_free (registered : table.Registered) (again : other.Registered)
    (same : table.methods.Perm other.methods) (declared : ending (Check.globals globals) {} = (.ok (), left))
    (initialized : left.global.IsInitialized) :
    (Outline.IsAccepted ⟨globals, table⟩ ↔ Outline.IsAccepted ⟨globals, other⟩) ∧
      (Outline.IsAccepted ⟨globals, table⟩ ↔ table.PassesAlone left) ∧
      (Outline.IsAccepted ⟨globals, other⟩ ↔ other.PassesAlone left) ∧
      ∀ verdict another, (Check.outline ⟨globals, table⟩ {}).result = .ok verdict →
        (Check.outline ⟨globals, other⟩ {}).result = .ok another →
        ∀ name, Option.Rel Binding.SameButValue (verdict.scopes.global.get? name) (another.scopes.global.get? name) := by
  have full := full_of_globals declared initialized
  have start := Scopes.Compares.refl sameButValue_overlooks left
  have extended := registered.extendedBy_of_perm again same
  have reverse := again.extendedBy_of_perm registered same.symm
  have first : Outline.IsAccepted ⟨globals, table⟩ ↔ table.PassesAlone left :=
    (isAccepted_iff declared).trans (eachMethod_passes_iff full (.refl table) (.refl table) table.methods start)
  have second : Outline.IsAccepted ⟨globals, other⟩ ↔ other.PassesAlone left :=
    (isAccepted_iff declared).trans (eachMethod_passes_iff full (.refl other) (.refl other) other.methods start)
  have across : Outline.IsAccepted ⟨globals, other⟩ ↔ table.PassesAlone left := by
    refine (isAccepted_iff declared).trans ?_
    refine (eachMethod_passes_iff full extended reverse other.methods start).trans ?_
    exact forall_congr' fun checked => imp_congr_left same.mem_iff.symm
  refine ⟨first.trans across.symm, first, second, ?_⟩
  intro verdict another accepted passed name
  rw [← Scopes.slot_zero, ← Scopes.slot_zero]
  have here := (compares_of_outline full declared accepted).slots 0 name
  have there := (compares_of_outline full declared passed).slots 0 name
  exact same_of_same here there

/-- Two methods that share a variable. The first calls the second, which is given below it. -/
def sharing : List Method :=
  [⟨"f".toList, [], ["n = 2;".toList, "g(n);".toList, "return;".toList, ['}']]⟩,
    ⟨"g".toList, [⟨"k".toList, .int, false⟩], ["n = k;".toList, "return;".toList, ['}']]⟩]

theorem sharing_in_any_order :
    (Outline.IsAccepted ⟨["int n = 1;".toList], .ofMethods sharing⟩ ↔
        Outline.IsAccepted ⟨["int n = 1;".toList], .ofMethods sharing.reverse⟩) ∧
      Outline.IsAccepted ⟨["int n = 1;".toList], .ofMethods sharing.reverse⟩ := by
  have registered := (MethodTable.registered_ofMethods (by decide) : (MethodTable.ofMethods sharing).Registered)
  have again := (MethodTable.registered_ofMethods (by decide) : (MethodTable.ofMethods sharing.reverse).Registered)
  have same : (MethodTable.ofMethods sharing).methods.Perm (MethodTable.ofMethods sharing.reverse).methods := by
    rw [MethodTable.methods_ofMethods, MethodTable.methods_ofMethods]
    exact (List.reverse_perm sharing).symm
  have declared : ending (Check.globals ["int n = 1;".toList]) {} =
      (.ok (), ⟨[⟨"n".toList, .int, false, true, some "1".toList⟩], []⟩) := by
    decide +kernel
  have initialized : Scope.IsInitialized (Scopes.global ⟨[⟨"n".toList, .int, false, true, some "1".toList⟩], []⟩) := by
    intro name binding found
    cases List.mem_singleton.mp (List.mem_of_find?_eq_some found)
    rfl
  obtain ⟨free, -, -, -⟩ := order_of_methods_is_free registered again same declared initialized
  have passes : Outline.IsAccepted ⟨["int n = 1;".toList], .ofMethods sharing⟩ := by
    refine ⟨⟨⟨[⟨"n".toList, .int, false, true, none⟩], []⟩, 2⟩, ?_⟩
    decide +kernel
  exact ⟨free, free.mp passes⟩

end MethodOrder
end Linewise
