import Linewise.Proofs.ScopeComparison
import Linewise.Proofs.Session
import Mathlib.Data.List.Infix

/-! Scopes that are opened, closed and filled with nothing checked in between. The depth counts what was
opened and not closed again, a step that fails changes nothing, and a step that passes touches one binding
at most. So when a scope is closed, all those around it bind the names they bound when it was opened. -/

namespace Linewise

inductive Step.Unchecked : Step → Prop where
  | openScope : Unchecked .openScope
  | closeScope : Unchecked .closeScope
  | declare (binding : Binding) : Unchecked (.declare binding)
  | assign (name : Text) (value : Option Text) : Unchecked (.assign name value)

namespace Step

def opens : Step → Bool
  | openScope => true
  | _ => false

def closes : Step → Bool
  | closeScope => true
  | _ => false

end Step

def passing (kind : Step → Bool) (steps : List Step) (scopes : Scopes) : Nat :=
  (steps.zip (session steps scopes).1).countP fun (step, result) => kind step && result.isOk

/-- These steps close no scope that was open before them, and they close all that they open. So whatever
closes a scope next closes the one that was current in front of them. -/
structure Nested (scopes : Scopes) (steps : List Step) : Prop where
  above : ∀ part, part <+: steps → scopes.depth ≤ (session part scopes).2.depth
  level : (session steps scopes).2.depth = scopes.depth

/-- The rules that every step goes by which changes scopes without a check. -/
structure Scopes.Ordered (scopes : Scopes) : Prop where
  stacked : scopes.frames.length = scopes.depth + 1
  close : ∀ fault after, Step.closeScope.run.ending scopes = (.error fault, after) ↔
    scopes.depth = 0 ∧ fault = .globalScopeClosed ∧ after = scopes
  declare : ∀ binding fault after, (Step.declare binding).run.ending scopes = (.error fault, after) ↔
    scopes.slot scopes.depth binding.name ≠ none ∧ fault = .redeclaration binding.name ∧ after = scopes
  declared : ∀ binding after, (Step.declare binding).run.ending scopes = (.ok (), after) →
    after.lookup binding.name = some binding ∧ ∀ name, name ≠ binding.name → after.lookup name = scopes.lookup name
  lookup : ∀ name binding, scopes.lookup name = some binding ↔ ∃ height, scopes.Resolves name height binding
  assigned : ∀ name value height binding, scopes.Resolves name height binding →
    ∃ after, (Step.assign name value).run.ending scopes = (.ok (), after) ∧ after.depth = scopes.depth ∧
      after.slot height name = some (binding.assigned value) ∧
        ∀ other found, ¬ (other = height ∧ found = name) → after.slot other found = scopes.slot other found
  unfound : ∀ name value, scopes.lookup name = none →
    (Step.assign name value).run.ending scopes = (.ok (), scopes)

theorem session_append (first rest : List Step) (scopes : Scopes) :
    (session (first ++ rest) scopes).2 = (session rest (session first scopes).2).2 := by
  induction first generalizing scopes with
  | nil => rfl
  | cons step first ih => exact ih (step.run.ending scopes).2

/-- All that a step can do to scopes which is made without a check. -/
theorem Step.unchecked_cases {step : Step} (unchecked : step.Unchecked) (scopes : Scopes) :
    (∃ fault, step.run.ending scopes = (.error fault, scopes)) ∨
    (step = .openScope ∧ step.run.ending scopes = (.ok (), scopes.opened)) ∨
    (∃ after, step = .closeScope ∧ scopes.close = .ok after ∧ step.run.ending scopes = (.ok (), after)) ∨
    (∃ binding, step = .declare binding ∧
      step.run.ending scopes = (.ok (), { scopes with current := binding :: scopes.current })) ∨
    ∃ name value, step = .assign name value ∧ step.run.ending scopes = (.ok (), scopes.assign name value) := by
  cases unchecked with
  | openScope => exact .inr (.inl ⟨rfl, rfl⟩)
  | assign name value => exact .inr (.inr (.inr (.inr ⟨name, value, rfl, rfl⟩)))
  | closeScope =>
    cases closed : scopes.close with
    | error fault => exact .inl ⟨fault, Run.ending_step_eq_error_iff.mpr ⟨closed, rfl⟩⟩
    | ok after => exact .inr (.inr (.inl ⟨after, rfl, rfl, Run.ending_step_eq_ok_iff.mpr closed⟩))
  | declare binding =>
    cases made : scopes.declare binding with
    | error fault => exact .inl ⟨fault, Run.ending_step_eq_error_iff.mpr ⟨made, rfl⟩⟩
    | ok after =>
      obtain ⟨-, rfl⟩ := Scopes.declare_eq_ok_iff.mp made
      exact .inr (.inr (.inr (.inl ⟨binding, rfl, Run.ending_step_eq_ok_iff.mpr made⟩)))

namespace Scopes

variable {outer scopes after : Scopes} {name : Text} {fault : Fault}

theorem close_eq_error_iff : scopes.close = .error fault ↔ scopes.depth = 0 ∧ fault = .globalScopeClosed := by
  rcases scopes with ⟨current, _ | ⟨next, enclosing⟩⟩
  · simp [close, depth, eq_comm]
  · simp [close, depth]

theorem declare_eq_error_iff {binding : Binding} :
    scopes.declare binding = .error fault ↔
      scopes.slot scopes.depth binding.name ≠ none ∧ fault = .redeclaration binding.name := by
  rw [slot_depth, Ne, Scope.get?_eq_none_iff, Bool.not_eq_false, declare]
  split
  · next held => simp [held, eq_comm]
  · next free => simp [free]

/-- A new binding hides those of its name and no others. -/
theorem lookup_of_declared (scopes : Scopes) (binding : Binding) (name : Text) :
    lookup { scopes with current := binding :: scopes.current } name =
      if binding.name = name then some binding else scopes.lookup name := by
  rw [lookup, lookup, frames, frames, List.findSome?_cons, List.findSome?_cons, Scope.get?_cons]
  by_cases same : binding.name = name
  · rw [if_pos same, if_pos same]
  · rw [if_neg same, if_neg same]

/-- An assignment writes to one binding, which no other name stands for and which lies at one height. -/
theorem slot_assign_of_apart {height other : Nat} {found : Text} {binding : Binding} (value : Option Text)
    (resolves : scopes.Resolves name height binding) (apart : ¬ (other = height ∧ found = name)) :
    (scopes.assign name value).slot other found = scopes.slot other found := by
  by_cases same : found = name
  · subst same
    exact (slot_assign_of_resolves value resolves).2 other fun here => apart ⟨here, rfl⟩
  · exact slot_assign_of_ne value same scopes other

theorem ordered (scopes : Scopes) : scopes.Ordered where
  stacked := length_frames scopes
  close fault after := by
    rw [Step.run, Run.ending_step_eq_error_iff, close_eq_error_iff, and_assoc]
  declare binding fault after := by
    rw [Step.run, Run.ending_step_eq_error_iff, declare_eq_error_iff, and_assoc]
  declared binding after passed := by
    obtain ⟨-, rfl⟩ := declare_eq_ok_iff.mp (Run.ending_step_eq_ok_iff.mp passed)
    refine ⟨(lookup_of_declared scopes binding _).trans (if_pos rfl), ?_⟩
    exact fun name apart => (lookup_of_declared scopes binding name).trans (if_neg (Ne.symm apart))
  lookup name binding := lookup_eq_some_iff
  assigned name value height binding resolves := by
    have written := (slot_assign_of_resolves value resolves).1
    exact ⟨scopes.assign name value, rfl, depth_assign name value scopes, written,
      fun other found apart => slot_assign_of_apart value resolves apart⟩
  unfound name value unfound := by
    have same := assign_of_unfound value unfound
    exact congrArg (Prod.mk _) same

/-- Assigning to a variable leaves all names bound where they were. -/
theorem compares_assign (name : Text) (value : Option Text) (scopes : Scopes) :
    scopes.Compares Binding.AtMost (scopes.assign name value) := by
  have start : scopes.Compares Binding.AtMost scopes := .refl Binding.AtMost.overlooks scopes
  cases looked : scopes.lookup name with
  | none => rwa [assign_of_unfound value looked]
  | some binding =>
    obtain ⟨place, resolves⟩ := lookup_eq_some_iff.mp looked
    refine ⟨depth_assign name value scopes, fun height found => ?_⟩
    by_cases here : height = place ∧ found = name
    · obtain ⟨rfl, rfl⟩ := here
      rw [resolves.bound, (slot_assign_of_resolves value resolves).1]
      exact .some ⟨rfl, rfl, rfl, fun _ => rfl⟩
    · rw [slot_assign_of_apart value resolves here]
      exact start.slots height found

/-- Scopes that were current once lie at the bottom of the stack, and bind what they bound then. -/
def Underlies (outer scopes : Scopes) : Prop :=
  ∃ lower, outer.Compares Binding.AtMost lower ∧ lower.frames <:+ scopes.frames

theorem Underlies.refl (scopes : Scopes) : scopes.Underlies scopes :=
  ⟨scopes, .refl Binding.AtMost.overlooks scopes, List.suffix_rfl⟩

private theorem suffix_assignIn (name : Text) (value : Option Text) (upper lower : List Scope) :
    lower <:+ assignIn name value (upper ++ lower) ∨ assignIn name value lower <:+ assignIn name value (upper ++ lower) := by
  induction upper with
  | nil => exact Or.inr List.suffix_rfl
  | cons scope upper ih =>
    rw [List.cons_append, assignIn]
    split
    · exact Or.inl ((List.suffix_append upper lower).trans (List.suffix_cons _ _))
    · exact ih.imp (fun kept => kept.trans (List.suffix_cons _ _)) fun written => written.trans (List.suffix_cons _ _)

namespace Underlies

theorem opened (underlies : outer.Underlies scopes) : outer.Underlies scopes.opened := by
  obtain ⟨lower, compares, bottom⟩ := underlies
  exact ⟨lower, compares, bottom.trans (List.suffix_cons _ _)⟩

/-- What lies under the current scope lies under any other that takes its place. -/
theorem replaced (underlies : outer.Underlies scopes) (inside : outer.depth < scopes.depth) (current : Scope) :
    outer.Underlies { scopes with current } := by
  obtain ⟨lower, compares, bottom⟩ := underlies
  refine ⟨lower, compares, ?_⟩
  rcases List.suffix_cons_iff.mp bottom with whole | under
  · have lengths := congrArg List.length whole
    rw [length_frames, ← frames, length_frames, compares.depth] at lengths
    omega
  · exact under.trans (List.suffix_cons _ _)

theorem close (underlies : outer.Underlies scopes) (closed : scopes.close = .ok after)
    (remains : outer.depth ≤ after.depth) : outer.Underlies after := by
  obtain ⟨lower, compares, bottom⟩ := underlies
  have lowered := depth_of_close closed
  obtain ⟨scope, same⟩ := close_eq_ok_iff.mp closed
  rw [same] at bottom
  refine ⟨lower, compares, (List.suffix_cons_iff.mp bottom).resolve_left ?_⟩
  intro whole
  have lengths := congrArg List.length whole
  rw [List.length_cons, length_frames, length_frames, compares.depth] at lengths
  omega

theorem assign (underlies : outer.Underlies scopes) (name : Text) (value : Option Text) :
    outer.Underlies (scopes.assign name value) := by
  obtain ⟨lower, compares, upper, whole⟩ := underlies
  rw [Underlies, frames_assign, ← whole]
  rcases suffix_assignIn name value upper lower.frames with kept | written
  · exact ⟨lower, compares, kept⟩
  · refine ⟨lower.assign name value, compares.trans (compares_assign name value lower), ?_⟩
    rwa [frames_assign]

theorem step {step : Step} (unchecked : step.Unchecked) (underlies : outer.Underlies scopes)
    (inside : outer.depth < scopes.depth) (remains : outer.depth ≤ (step.run.ending scopes).2.depth) :
    outer.Underlies (step.run.ending scopes).2 := by
  rcases Step.unchecked_cases unchecked scopes with ⟨fault, failed⟩ | ⟨-, passed⟩ | ⟨after, -, closed, passed⟩ |
    ⟨binding, -, passed⟩ | ⟨name, value, -, passed⟩
  · rwa [failed]
  · rw [passed]
    exact underlies.opened
  · rw [passed] at remains ⊢
    exact underlies.close closed remains
  · rw [passed]
    exact underlies.replaced inside _
  · rw [passed]
    exact underlies.assign name value

theorem compares (underlies : outer.Underlies scopes) (level : scopes.depth = outer.depth) :
    outer.Compares Binding.AtMost scopes := by
  obtain ⟨lower, compares, bottom⟩ := underlies
  have lengths : lower.frames.length = scopes.frames.length := by
    rw [length_frames, length_frames, compares.depth, level]
  rwa [← eq_of_frames (bottom.eq_of_length lengths)]

end Underlies
end Scopes

namespace ScopeSessions
open Scopes

variable {steps inner : List Step} {outer scopes : Scopes}

theorem passing_cons (kind : Step → Bool) (step : Step) (steps : List Step) (scopes : Scopes) :
    passing kind (step :: steps) scopes =
      passing kind steps (step.run.ending scopes).2 + if kind step && (step.run.ending scopes).1.isOk then 1 else 0 :=
  List.countP_cons

private theorem depth_of_step {step : Step} (unchecked : step.Unchecked) (scopes : Scopes) :
    (step.run.ending scopes).2.depth + (if step.closes && (step.run.ending scopes).1.isOk then 1 else 0) =
      scopes.depth + if step.opens && (step.run.ending scopes).1.isOk then 1 else 0 := by
  rcases Step.unchecked_cases unchecked scopes with ⟨fault, failed⟩ | ⟨rfl, -⟩ | ⟨after, rfl, closed, passed⟩ |
    ⟨binding, rfl, passed⟩ | ⟨name, value, rfl, -⟩
  · have unpassed : (Except.error fault : Except Fault Unit).isOk = false := rfl
    rw [failed, unpassed, Bool.and_false, Bool.and_false]
  · rfl
  · rw [passed]
    exact (depth_of_close closed).symm
  · rw [passed]
    rfl
  · exact depth_assign name value scopes

theorem depth_of_session (unchecked : ∀ step ∈ steps, step.Unchecked) (scopes : Scopes) :
    (session steps scopes).2.depth + passing Step.closes steps scopes = scopes.depth + passing Step.opens steps scopes := by
  induction steps generalizing scopes with
  | nil => rfl
  | cons step steps ih =>
    obtain ⟨here, later⟩ := List.forall_mem_cons.mp unchecked
    have first := depth_of_step here scopes
    have rest := ih later (step.run.ending scopes).2
    rw [passing_cons, passing_cons]
    change (session steps (step.run.ending scopes).2).2.depth + _ = _
    omega

/-- Steps that stay above some scopes leave them where they are. -/
theorem session_underlies (unchecked : ∀ step ∈ steps, step.Unchecked) (underlies : outer.Underlies scopes)
    (above : ∀ part, part <+: steps → outer.depth < (session part scopes).2.depth) :
    outer.Underlies (session steps scopes).2 := by
  induction steps generalizing scopes with
  | nil => exact underlies
  | cons step steps ih =>
    obtain ⟨here, later⟩ := List.forall_mem_cons.mp unchecked
    have before : outer.depth < scopes.depth := above [] List.nil_prefix
    have behind : outer.depth < (step.run.ending scopes).2.depth := above [step] ⟨steps, rfl⟩
    have next := underlies.step here before (Nat.le_of_lt behind)
    exact ih later next fun part begins => above (step :: part) (List.prefix_cons_inj step |>.mpr begins)

/-- A scope that is closed again is gone, and the scopes around it bind what they bound before it was opened. -/
theorem compares_of_nested (unchecked : ∀ step ∈ inner, step.Unchecked) (nested : Nested outer.opened inner) :
    outer.Compares Binding.AtMost (session (.openScope :: inner ++ [.closeScope]) outer).2 := by
  have below : outer.depth < outer.opened.depth := Nat.lt_succ_self outer.depth
  have inside := session_underlies unchecked (Underlies.refl outer).opened fun part begins =>
    Nat.lt_of_lt_of_le below (nested.above part begins)
  have level : (session inner outer.opened).2.depth = outer.depth + 1 := nested.level
  have last : (session (.openScope :: inner ++ [.closeScope]) outer).2 =
      (Step.closeScope.run.ending (session inner outer.opened).2).2 := session_append inner [.closeScope] outer.opened
  rw [last]
  cases closed : (session inner outer.opened).2.close with
  | error fault =>
    have bottom := (close_eq_error_iff.mp closed).1
    omega
  | ok after =>
    have lowered := depth_of_close closed
    rw [Step.run, Run.ending_step, closed]
    exact (inside.close closed (by omega)).compares (by omega)

/-- Wherever steps lead that change scopes without a check, the scopes go by their rules, and as many are
open above the global one as were opened and not closed again. Where a scope was opened and is closed
again, the names are bound in the same scopes as before, to variables of the same types that are final
where they were. -/
theorem sessions_keep_order (unchecked : ∀ step ∈ steps, step.Unchecked) :
    (session steps {}).2.Ordered ∧
      (session steps {}).2.depth + passing Step.closes steps {} = passing Step.opens steps {} ∧
      ∀ before inner behind, steps = before ++ .openScope :: inner ++ .closeScope :: behind →
        Nested (session before {}).2.opened inner →
        (session before {}).2.Compares Binding.AtMost (session (before ++ .openScope :: inner ++ [.closeScope]) {}).2 := by
  refine ⟨ordered _, (depth_of_session unchecked {}).trans (Nat.zero_add _), ?_⟩
  rintro before inner behind rfl nested
  have within : ∀ step ∈ inner, step.Unchecked := fun step member => unchecked step (by simp [member])
  rw [List.append_assoc, session_append]
  exact compares_of_nested within nested

def hidden : List Step :=
  [.declare ⟨['x'], .string, false, false, none⟩, .assign ['x'] (some ['1']), .openScope, .assign ['y'] none, .closeScope]

/-- The global scope cannot be closed, so only two of the three closing steps pass. -/
def around : List Step :=
  [.declare ⟨['x'], .int, false, false, none⟩] ++ .openScope :: hidden ++ .closeScope :: [.closeScope]

theorem around_keeps_order :
    (∀ step ∈ around, step.Unchecked) ∧ (session around {}).2.depth + 2 = passing Step.opens around {} ∧
      Nested ⟨[], [[⟨['x'], .int, false, false, none⟩]]⟩ hidden ∧
      Scopes.Compares Binding.AtMost ⟨[⟨['x'], .int, false, false, none⟩], []⟩
        (session ([.declare ⟨['x'], .int, false, false, none⟩] ++ .openScope :: hidden ++ [.closeScope]) {}).2 := by
  have unchecked : ∀ step ∈ around, step.Unchecked := by
    simp only [around, hidden, List.forall_mem_cons, List.cons_append, List.nil_append]
    exact ⟨.declare _, .openScope, .declare _, .assign _ _, .openScope, .assign _ _, .closeScope, .closeScope,
      .closeScope, List.forall_mem_nil _⟩
  have parts : ∀ part ∈ hidden.inits, 1 ≤ (session part ⟨[], [[⟨['x'], .int, false, false, none⟩]]⟩).2.depth := by
    decide
  have nested : Nested ⟨[], [[⟨['x'], .int, false, false, none⟩]]⟩ hidden :=
    ⟨fun part begins => parts part ((List.mem_inits part hidden).mpr begins), rfl⟩
  obtain ⟨-, counted, closing⟩ := sessions_keep_order unchecked
  exact ⟨unchecked, counted, nested, closing _ _ _ rfl nested⟩

end ScopeSessions
end Linewise
