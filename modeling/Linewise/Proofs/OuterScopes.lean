import Linewise.Check.Program
import Linewise.Proofs.ScopeChanges
import Linewise.Proofs.ScopeGrowth

/-! The check of a method leaves the scopes it began in where they are. However it ends, they
still bind the same names, and all that can have changed is that a variable was assigned to.
The counter and the scopes that the check has opened stay in step, so that nothing is declared
in a scope of the outside and none of those is closed. -/

namespace Linewise

namespace OuterScopes
open Run

structure Above (outer : Scopes) (count : Nat) (scopes : Scopes) : Prop where
  depth : scopes.depth = outer.depth + count
  grows : outer.Grows scopes

/-- How a check may end at a fault. Only a return that is missing is found before any scope is
opened. -/
structure Stops (outer : Scopes) (fault : Fault) (scopes : Scopes) : Prop where
  grows : outer.Grows scopes
  inside : fault ≠ .globalScopeClosed
  unopened : ∀ method line, fault = .missingReturn method line → scopes = outer

variable {allowed : Parameter → Prop} {outer scopes after : Scopes} {count : Nat}

namespace Above

theorem refl (outer : Scopes) : Above outer 0 outer :=
  ⟨rfl, .refl outer⟩

theorem trans {middle : Scopes} (begins : Above outer 0 middle) (goes : Above middle count scopes) :
    Above outer count scopes := by
  refine ⟨?_, begins.grows.trans goes.grows⟩
  rw [goes.depth, begins.depth, Nat.add_zero]

/-- What was changed above the outside has changed nothing there but what was assigned to. -/
theorem of_climbs (climbs : outer.Climbs allowed count scopes) : Above outer count scopes := by
  refine ⟨climbs.depth, ?_⟩
  induction climbs with
  | start => exact .refl outer
  | opened _ grows => exact grows.opened
  | closed climbs closed grows =>
    have depth := (climbs.closed closed).depth
    exact grows.close closed (by omega)
  | changed climbs change level grows =>
    have depth := climbs.depth
    cases change with
    | opened => exact grows.opened
    | closed closed =>
      have lowered := Scopes.depth_of_close closed
      omega
    | parameter known fresh => exact grows.declared (by omega) _
    | declared named fresh changeable stores => exact grows.declared (by omega) _
    | assigned found changeable given stores => exact grows.assign found changeable _

end Above

theorem Stops.of_halts {fault : Fault} (halts : outer.Halts allowed fault scopes) : Stops outer fault scopes := by
  cases halts with
  | unreturned => exact ⟨.refl outer, nofun, fun _ _ _ => rfl⟩
  | inside climbs ofLine =>
    exact ⟨(Above.of_climbs climbs).grows, ofLine.1, fun method line same => absurd same (ofLine.2 method line)⟩

/-- The check of a method that ends well has closed all the scopes it opened. -/
theorem method_keeps (methods : MethodTable) (checked : Method) (outer : Scopes) :
    Meets (Check.method methods checked) (· = outer) (fun _ => Above outer 0) (Stops outer) := by
  have known : ∀ parameter ∈ checked.parameters, (fun _ => True) parameter := fun _ _ => trivial
  have climbed := ScopeChanges.method_climbs methods checked outer known
  exact (climbed.allow fun _ _ => Stops.of_halts).promise fun _ _ => Above.of_climbs

/-- One method after the other begins where the one before it has left the scopes. -/
theorem eachMethod_keeps (table : MethodTable) (all : List Method) (outer : Scopes) :
    Meets (Check.eachMethod table all) (Above outer 0) (fun _ => Above outer 0)
      (fun _ scopes => outer.Grows scopes) := by
  apply Meets.forM
  intro checked _
  apply Meets.bind Meets.tell
  intro _ scopes above
  have met := method_keeps table checked scopes scopes rfl
  rcases ended : ending (Check.method table checked) scopes with ⟨_ | _, after⟩
  · rw [ended] at met
    exact above.grows.trans met.grows
  · rw [ended] at met
    exact above.trans met

theorem eachMethod_append (table : MethodTable) (methods more : List Method) :
    Check.eachMethod table (methods ++ more) =
      Check.eachMethod table methods >>= fun _ => Check.eachMethod table more :=
  List.forM_append

theorem ending_eachMethod_cons_eq_ok_iff {table : MethodTable} {checked : Method} {all : List Method} {last : Scopes} :
    ending (Check.eachMethod table (checked :: all)) scopes = (.ok (), last) ↔
      ∃ after, ending (Check.method table checked) scopes = (.ok (), after) ∧
        ending (Check.eachMethod table all) after = (.ok (), last) := by
  refine ending_forM_cons_eq_ok_iff.trans (exists_congr fun after => and_congr_left fun _ => ?_)
  rw [ending_bind_of_ok (ending_tell _ scopes)]

/-- Each method of a row that ends well was checked, from scopes that have at most grown. -/
theorem exists_of_eachMethod {table : MethodTable} {all : List Method} {checked : Method} {last : Scopes}
    (passed : ending (Check.eachMethod table all) outer = (.ok (), last)) (member : checked ∈ all) :
    ∃ scopes after, Above outer 0 scopes ∧ ending (Check.method table checked) scopes = (.ok (), after) := by
  obtain ⟨front, rest, rfl⟩ := List.append_of_mem member
  rw [eachMethod_append] at passed
  obtain ⟨_, scopes, earlier, passed⟩ := ending_bind_eq_ok_iff.mp passed
  obtain ⟨after, ended, _⟩ := ending_eachMethod_cons_eq_ok_iff.mp passed
  exact ⟨scopes, after, (eachMethod_keeps table front outer).of_ok (.refl outer) earlier, ended⟩

private theorem variableLine_level (line : Text) (depth : Nat) :
    Meets (Check.variableLine line) (AtDepth depth) (fun _ => AtDepth depth) (fun _ _ => True) := by
  apply ScopeChanges.variableLine_meets (fun _ => True)
  · exact fun scopes after same _ level => level.trans same
  · exact fun _ _ _ _ => trivial
  · exact fun _ _ _ => trivial

/-- The global lines open no scope. -/
theorem globals_level (lines : List Text) (depth : Nat) :
    Meets (Check.globals lines) (AtDepth depth) (fun _ => AtDepth depth) (fun _ _ => True) := by
  have each : Meets (lines.forM Check.globalLine) (AtDepth depth) (fun _ => AtDepth depth) (fun _ _ => True) := by
    apply Meets.forM
    intro line _
    apply Meets.bind (Meets.readAny line fun _ _ => trivial)
    intro statement
    cases statement with
    | declaration | assignment => exact variableLine_level line depth
    | methodHead _ _ | call _ _ | blockHead _ | blockEnd | ret => exact Meets.raise fun _ _ => trivial
  apply Meets.bind each
  intro _
  apply Meets.bind Meets.current
  intro _
  exact Meets.tell

/-- What the check of an outline goes through when it ends well. -/
theorem ending_outline_eq_ok_iff {outline : Outline} {verdict : Verdict} :
    ending (Check.outline outline) scopes = (.ok verdict, after) ↔
      ∃ left, ending (Check.globals outline.globals) scopes = (.ok (), left) ∧
        ending (Check.eachMethod outline.methods outline.methods.methods) left = (.ok (), after) ∧
        verdict = ⟨after, outline.methods.size⟩ := by
  constructor
  · intro passed
    obtain ⟨_, left, declared, passed⟩ := ending_bind_eq_ok_iff.mp passed
    obtain ⟨_, last, checked, passed⟩ := ending_bind_eq_ok_iff.mp passed
    cases passed
    exact ⟨left, declared, checked, rfl⟩
  · intro ⟨left, declared, checked, same⟩
    subst same
    exact (ending_bind_of_ok declared).trans (ending_bind_of_ok checked)

/-- However the check of a method ends, the scopes it began in are still there and have at most
grown. They alone are left where it ends well or finds no return, and the global scope is never
closed. So a program that is accepted leaves the global scope, with the variables that its
global lines declare. -/
theorem method_keeps_outer_scopes :
    (∀ methods checked outer result after, ending (Check.method methods checked) outer = (result, after) →
      outer.Grows after ∧ (result = .ok () → after.depth = outer.depth) ∧
        (∀ method line, result = .error (.missingReturn method line) → after = outer) ∧
        result ≠ .error .globalScopeClosed) ∧
    ∀ outline verdict, (Check.outline outline {}).result = .ok verdict →
      verdict.scopes.depth = 0 ∧ ∃ left, ending (Check.globals outline.globals) {} = (.ok (), left) ∧
        ∀ name, Option.Rel Binding.Grows (left.global.get? name) (verdict.scopes.global.get? name) := by
  constructor
  · intro methods checked outer result after ended
    have met := method_keeps methods checked outer outer rfl
    rw [ended] at met
    cases result with
    | ok _ => exact ⟨met.grows, fun _ => met.depth, nofun, nofun⟩
    | error fault =>
      refine ⟨met.grows, nofun, ?_, ?_⟩
      · intro method line same
        cases same
        exact met.unopened method line rfl
      · intro same
        cases same
        exact met.inside rfl
  · intro outline verdict passed
    have ended : ending (Check.outline outline) {} = (.ok verdict, (Check.outline outline {}).state) := by
      rw [ending, passed]
    obtain ⟨left, declared, checked, rfl⟩ := ending_outline_eq_ok_iff.mp ended
    have start : AtDepth 0 {} := rfl
    have level : left.depth = 0 := (globals_level outline.globals 0).of_ok start declared
    have above := (eachMethod_keeps outline.methods _ left).of_ok (.refl left) checked
    refine ⟨above.depth.trans level, left, declared, ?_⟩
    intro name
    rw [← Scopes.slot_zero, ← Scopes.slot_zero]
    exact above.grows.slots 0 (Nat.zero_le _) name

end OuterScopes
end Linewise
