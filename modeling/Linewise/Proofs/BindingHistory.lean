import Linewise.Proofs.BindingInvariants
import Linewise.Proofs.OuterScopes

/-! The history of a binding. It is made with a name that is one, and from then on it is found
under that name until its scope is closed. All that happens to it meanwhile is that a value is
written to it, and to a final one not even that. -/

namespace Linewise

def Parameter.IsRead (parameter : Parameter) : Prop :=
  ∃ t, Parameter.ofText? t = some parameter

structure Binding.Sound (binding : Binding) : Prop where
  named : isIdentifier binding.name = true
  final : binding.isFinal = true → binding.isInitialized = true
  unset : binding.isInitialized = false → binding.value = none

def Scopes.Retains (first last : Scopes) : Prop :=
  ∀ height ≤ last.depth, ∀ name binding, first.slot height name = some binding →
    ∃ later, last.slot height name = some later ∧ binding.Grows later

/-- No scope is closed that was open, and all are retained. New bindings may come. -/
structure Scopes.ExtendsTo (first last : Scopes) : Prop where
  depth : first.depth ≤ last.depth
  retains : first.Retains last

theorem Parameter.IsRead.named {parameter : Parameter} (read : parameter.IsRead) :
    isIdentifier parameter.name = true := by
  obtain ⟨t, found⟩ := read
  simp only [Parameter.ofText?, Option.bind_eq_bind, Option.bind_eq_some_iff] at found
  obtain ⟨⟨isFinal, ty, name⟩, -, found⟩ := found
  split at found
  · next identifier =>
    cases found
    exact identifier
  · cases found

theorem Binding.Sound.lasting : Binding.Lasting Parameter.IsRead Binding.Sound where
  parameter _ read := ⟨read.named, fun _ => rfl, nofun⟩
  unset _ _ named := ⟨named, nofun, fun _ => rfl⟩
  valued _ _ _ _ named _ := ⟨named, fun _ => rfl, nofun⟩
  assigned _ _ sound _ _ := ⟨sound.named, fun _ => rfl, nofun⟩

namespace Scopes

variable {first scopes after : Scopes}

/-- Growing scopes get no new names, but they may be extended by these as well. -/
theorem Grows.extendsTo (grows : scopes.Grows after) : scopes.ExtendsTo after := by
  refine ⟨grows.depth, ?_⟩
  intro height _ name binding bound
  have later := grows.slots height (height_le_of_slot bound) name
  rw [bound] at later
  cases found : after.slot height name with
  | none =>
    rw [found] at later
    cases later
  | some last =>
    rw [found] at later
    exact ⟨last, rfl, Option.rel_some_some.mp later⟩

namespace ExtendsTo

theorem refl (scopes : Scopes) : scopes.ExtendsTo scopes :=
  (Grows.refl scopes).extendsTo

theorem trans (begins : first.ExtendsTo scopes) (goes : scopes.ExtendsTo after) : first.ExtendsTo after := by
  refine ⟨Nat.le_trans begins.depth goes.depth, ?_⟩
  intro height within name binding bound
  have remains := Nat.le_trans (height_le_of_slot bound) begins.depth
  obtain ⟨middle, found, grown⟩ := begins.retains height remains name binding bound
  obtain ⟨later, last, growing⟩ := goes.retains height within name middle found
  exact ⟨later, last, grown.trans growing⟩

end ExtendsTo

private theorem extendsTo_declared {binding : Binding} (fresh : scopes.current.contains binding.name = false) :
    scopes.ExtendsTo { scopes with current := binding :: scopes.current } := by
  refine ⟨Nat.le_refl _, ?_⟩
  intro height _ name other bound
  rw [slot_of_declared, if_neg]
  · exact ⟨other, bound, .refl other⟩
  · rintro ⟨rfl, rfl⟩
    rw [slot_depth, Scope.get?_eq_none_iff.mpr fresh] at bound
    cases bound

/-- Every change but the end of a scope extends the scopes. -/
theorem Change.extendsTo {allowed : Parameter → Prop} (change : scopes.Change allowed after)
    (stays : scopes.depth ≤ after.depth) : scopes.ExtendsTo after := by
  cases change with
  | opened => exact (Grows.refl scopes).opened.extendsTo
  | closed closed =>
    have lowered := depth_of_close closed
    omega
  | parameter known fresh => exact extendsTo_declared fresh
  | declared named fresh changeable stores => exact extendsTo_declared fresh
  | assigned found changeable given stores => exact ((Grows.refl scopes).assign found changeable _).extendsTo

/-- Closing a scope takes its own bindings away and no others. -/
theorem retains_of_close (closed : scopes.close = .ok after) : scopes.Retains after := by
  intro height within name binding bound
  rw [slot_of_close closed name within]
  exact ⟨binding, bound, .refl binding⟩

end Scopes

namespace BindingHistory
open Run

variable {allowed : Parameter → Prop} {scopes : Scopes}

private theorem parameter_extends {parameter : Parameter} (known : allowed parameter) :
    (step (Scopes.declare (.ofParameter parameter))).Keeps scopes.ExtendsTo := by
  apply Keeps.step
  intro state last before made
  obtain ⟨change, level⟩ := ScopeChanges.change_of_parameter known made
  exact before.trans (change.extendsTo (Nat.le_of_eq level.symm))

private theorem variableLine_extends (line : Text) : (Check.variableLine line).Keeps scopes.ExtendsTo := by
  apply ScopeChanges.variableLine_meets (fun _ => True)
  · exact fun state last before change level => before.trans (change.extendsTo (Nat.le_of_eq level.symm))
  · exact fun state fault before _ => before
  · exact fun _ state before => before

private theorem method_extends (methods : MethodTable) (checked : Method) (outer : Scopes) :
    Meets (Check.method methods checked) (· = outer) (fun _ => outer.ExtendsTo) fun _ => outer.ExtendsTo := by
  have kept := OuterScopes.method_keeps methods checked outer
  exact (kept.allow fun _ _ stops => stops.grows.extendsTo).promise fun _ _ above => above.grows.extendsTo

/-- No step but the one that is there for it closes a scope. -/
theorem extends_or_closes {step : Step} (regular : step.Regular allowed) (scopes : Scopes) :
    scopes.ExtendsTo (step.run.ending scopes).2 ∨ step = .closeScope ∧ scopes.close = .ok (step.run.ending scopes).2 := by
  cases regular with
  | closeScope =>
    rw [Step.run, ending_step]
    cases scopes.close with
    | error fault => exact Or.inl (.refl scopes)
    | ok after => exact Or.inr ⟨rfl, rfl⟩
  | openScope => exact Or.inl (Scopes.Grows.refl scopes).opened.extendsTo
  | parameter known => exact Or.inl ((parameter_extends known).last (.refl scopes))
  | variableLine line => exact Or.inl ((variableLine_extends line).last (.refl scopes))
  | value target t => exact Or.inl (.refl scopes)
  | condition t => exact Or.inl (.refl scopes)
  | call methods callee given => exact Or.inl (.refl scopes)
  | method methods known => exact Or.inl ((method_extends methods _ scopes).last rfl)

/-- Wherever a session comes to, each binding is found in its scope under its own name and no
other. The name is one, a final binding is initialized, and one that is not initialized holds
nothing. The next step closes at most the scope it is there to close, and what it leaves open
still binds what it did: with the same types, no less initialized, and the same where final. -/
theorem bindings_stay_sound {steps : List Step} (regular : ∀ step ∈ steps, step.Regular Parameter.IsRead) :
    (∀ scope ∈ (session steps {}).2.frames, ∀ binding ∈ scope,
      (∀ name, scope.get? name = some binding ↔ name = binding.name) ∧ binding.Sound) ∧
    ∀ step : Step, step.Regular Parameter.IsRead →
      ((session steps {}).2.depth ≤ (step.run.ending (session steps {}).2).2.depth ∨
        step = .closeScope ∧ (session steps {}).2.depth = (step.run.ending (session steps {}).2).2.depth + 1) ∧
      (session steps {}).2.Retains (step.run.ending (session steps {}).2).2 := by
  constructor
  · intro scope member binding bound
    have distinct := ScopeChanges.session_distinct regular scope member
    have sound := ScopeChanges.session_holds regular Binding.Sound.lasting scope member binding bound
    exact ⟨fun name => Scope.get?_eq_some_iff distinct bound, sound⟩
  · intro step next
    rcases extends_or_closes next (session steps {}).2 with extended | ⟨closes, closed⟩
    · exact ⟨Or.inl extended.depth, extended.retains⟩
    · exact ⟨Or.inr ⟨closes, Scopes.depth_of_close closed⟩, Scopes.retains_of_close closed⟩

/-- A final parameter hides a variable. A line writes to it and so does a method, which leaves
its scope to be closed. -/
def writingToFinal : List Step :=
  [.variableLine "int a, b = 2;".toList, .openScope, .parameter ⟨"a".toList, .int, true⟩,
    .variableLine "b = a, a = 3;".toList,
    .method {} ⟨"f".toList, [⟨"b".toList, .double, false⟩], ["a = b;".toList, "return;".toList, ['}']]⟩,
    .closeScope]

theorem writingToFinal_stays_sound :
    (∀ step ∈ writingToFinal, step.Regular Parameter.IsRead) ∧
      (session writingToFinal {}).1 = [.ok (), .ok (), .ok (), .error (.assignmentToFinal "a".toList),
        .error (.assignmentToFinal "a".toList), .ok ()] ∧
      (∀ scope ∈ (session writingToFinal {}).2.frames, ∀ binding ∈ scope, binding.Sound) ∧
      (session writingToFinal {}).2.Retains (Step.closeScope.run.ending (session writingToFinal {}).2).2 := by
  have final : Parameter.IsRead ⟨"a".toList, .int, true⟩ := ⟨"final int a".toList, by decide +kernel⟩
  have plain : Parameter.IsRead ⟨"b".toList, .double, false⟩ := ⟨"double b".toList, by decide +kernel⟩
  have regular : ∀ step ∈ writingToFinal, step.Regular Parameter.IsRead := by
    simp only [writingToFinal, List.forall_mem_cons]
    exact ⟨.variableLine _, .openScope, .parameter final, .variableLine _,
      .method {} (by simpa using plain), .closeScope, List.forall_mem_nil _⟩
  obtain ⟨sound, next⟩ := bindings_stay_sound regular
  refine ⟨regular, by decide +kernel, ?_, (next .closeScope .closeScope).2⟩
  intro scope member binding bound
  exact (sound scope member binding bound).2

end BindingHistory
end Linewise
