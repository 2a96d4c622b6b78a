import Linewise.Scope

/-! Scopes are counted from the global one, so that a scope keeps its height while others are
opened and closed above it. A name stands for the binding in the highest scope that knows it,
and each change of the scopes touches one height only. -/

namespace Linewise

namespace Scope

theorem get?_eq_none_iff {scope : Scope} {name : Text} : scope.get? name = none ↔ scope.contains name = false := by
  unfold contains
  cases scope.get? name <;> simp

theorem get?_assign_self {scope : Scope} {name : Text} {binding : Binding} (value : Option Text)
    (found : scope.get? name = some binding) :
    (scope.assign name value).get? name = some (binding.assigned value) := by
  induction scope with
  | nil => cases found
  | cons first scope ih =>
    rw [get?_cons] at found
    unfold Scope.assign
    by_cases same : first.name = name
    · rw [if_pos same] at found
      cases found
      rw [if_pos (beq_iff_eq.mpr same), get?_cons]
      exact if_pos same
    · rw [if_neg same] at found
      rw [if_neg (by simpa using same), get?_cons, if_neg same]
      exact ih found

theorem get?_assign_of_ne {name other : Text} (value : Option Text) (apart : other ≠ name) (scope : Scope) :
    (scope.assign name value).get? other = scope.get? other := by
  induction scope with
  | nil => rfl
  | cons first scope ih =>
    unfold Scope.assign
    split
    · next same =>
      have unlike : first.name ≠ other := fun named => apart (named.symm.trans (beq_iff_eq.mp same))
      rw [get?_cons, get?_cons, if_neg unlike]
      exact if_neg unlike
    · rw [get?_cons, get?_cons, ih]

end Scope

namespace Scopes

/-- What a name is bound to in the scope at a height, where the last scope is the global one. -/
def slotIn : List Scope → Nat → Text → Option Binding
  | [], _, _ => none
  | scope :: outer, height, name => if height = outer.length then scope.get? name else slotIn outer height name

def slot (scopes : Scopes) (height : Nat) (name : Text) : Option Binding :=
  slotIn scopes.frames height name

structure Resolves (scopes : Scopes) (name : Text) (height : Nat) (binding : Binding) : Prop where
  bound : scopes.slot height name = some binding
  highest : ∀ above, height < above → scopes.slot above name = none

theorem slotIn_of_length_le {frames : List Scope} {height : Nat} (name : Text) (beyond : frames.length ≤ height) :
    slotIn frames height name = none := by
  induction frames with
  | nil => rfl
  | cons scope outer ih =>
    rw [List.length_cons] at beyond
    rw [slotIn, if_neg (by omega)]
    exact ih (by omega)

theorem lt_length_of_slotIn {frames : List Scope} {height : Nat} {name : Text} {binding : Binding}
    (bound : slotIn frames height name = some binding) : height < frames.length := by
  apply Nat.lt_of_not_le
  intro beyond
  rw [slotIn_of_length_le name beyond] at bound
  cases bound

theorem slotIn_cons_length (scope : Scope) (outer : List Scope) (name : Text) :
    slotIn (scope :: outer) outer.length name = scope.get? name :=
  if_pos rfl

theorem slotIn_cons_of_ne {height : Nat} (scope : Scope) {outer : List Scope} (name : Text)
    (lower : height ≠ outer.length) : slotIn (scope :: outer) height name = slotIn outer height name :=
  if_neg lower

private theorem highest_of_cons {scope : Scope} {outer : List Scope} {height : Nat} {name : Text}
    (highest : ∀ above, height < above → slotIn (scope :: outer) above name = none) :
    ∀ above, height < above → slotIn outer above name = none := by
  intro above higher
  have unbound := highest above higher
  by_cases top : above = outer.length
  · exact slotIn_of_length_le name (Nat.le_of_eq top.symm)
  · rwa [slotIn_cons_of_ne scope name top] at unbound

theorem length_assignIn (name : Text) (value : Option Text) (frames : List Scope) :
    (assignIn name value frames).length = frames.length := by
  induction frames with
  | nil => rfl
  | cons scope frames ih =>
    rw [assignIn]
    split
    · rfl
    · simp [ih]

@[simp] theorem depth_assign (name : Text) (value : Option Text) (scopes : Scopes) :
    (scopes.assign name value).depth = scopes.depth := by
  unfold assign depth
  split
  · rfl
  · exact length_assignIn name value scopes.enclosing

theorem length_frames (scopes : Scopes) : scopes.frames.length = scopes.depth + 1 :=
  rfl

theorem height_le_of_slot {scopes : Scopes} {height : Nat} {name : Text} {binding : Binding}
    (bound : scopes.slot height name = some binding) : height ≤ scopes.depth :=
  Nat.le_of_lt_succ (lt_length_of_slotIn bound)

theorem slot_of_depth_lt {scopes : Scopes} {height : Nat} (name : Text) (beyond : scopes.depth < height) :
    scopes.slot height name = none :=
  slotIn_of_length_le name beyond

/-- The scope that is open just now is the highest. -/
theorem slot_depth (scopes : Scopes) (name : Text) : scopes.slot scopes.depth name = scopes.current.get? name :=
  if_pos rfl

private theorem slotIn_zero (scope : Scope) (outer : List Scope) (name : Text) :
    slotIn (scope :: outer) 0 name = (outer.getLastD scope).get? name := by
  induction outer generalizing scope with
  | nil => rfl
  | cons next outer ih =>
    rw [slotIn_cons_of_ne scope name (by simp), List.getLastD_cons]
    exact ih next

/-- The global scope is the lowest. -/
theorem slot_zero (scopes : Scopes) (name : Text) : scopes.slot 0 name = scopes.global.get? name :=
  slotIn_zero scopes.current scopes.enclosing name

private theorem findSome_iff_slotIn {frames : List Scope} {name : Text} {binding : Binding} :
    frames.findSome? (fun scope => scope.get? name) = some binding ↔
      ∃ height, slotIn frames height name = some binding ∧
        ∀ above, height < above → slotIn frames above name = none := by
  induction frames with
  | nil =>
    constructor
    · intro found
      cases found
    · intro ⟨height, bound, _⟩
      cases bound
  | cons scope outer ih =>
    cases here : scope.get? name with
    | some found =>
      simp only [List.findSome?_cons, here]
      constructor
      · intro same
        cases same
        exact ⟨outer.length, (slotIn_cons_length scope outer name).trans here,
          fun above higher => slotIn_of_length_le name higher⟩
      · intro ⟨height, bound, highest⟩
        by_cases top : height = outer.length
        · rw [top, slotIn_cons_length, here] at bound
          exact bound
        · rw [slotIn_cons_of_ne scope name top] at bound
          have unbound := highest outer.length (lt_length_of_slotIn bound)
          rw [slotIn_cons_length, here] at unbound
          cases unbound
    | none =>
      simp only [List.findSome?_cons, here]
      refine ih.trans ⟨?_, ?_⟩
      · intro ⟨height, bound, highest⟩
        have inside := lt_length_of_slotIn bound
        refine ⟨height, (slotIn_cons_of_ne scope name (Nat.ne_of_lt inside)).trans bound, ?_⟩
        intro above higher
        by_cases top : above = outer.length
        · rw [top, slotIn_cons_length, here]
        · rw [slotIn_cons_of_ne scope name top]
          exact highest above higher
      · intro ⟨height, bound, highest⟩
        by_cases top : height = outer.length
        · rw [top, slotIn_cons_length, here] at bound
          cases bound
        · rw [slotIn_cons_of_ne scope name top] at bound
          exact ⟨height, bound, highest_of_cons highest⟩

/-- The name that is looked up is found where it resolves. -/
theorem lookup_eq_some_iff {scopes : Scopes} {name : Text} {binding : Binding} :
    scopes.lookup name = some binding ↔ ∃ height, scopes.Resolves name height binding := by
  refine findSome_iff_slotIn.trans ⟨?_, ?_⟩
  · intro ⟨height, bound, highest⟩
    exact ⟨height, bound, highest⟩
  · intro ⟨height, bound, highest⟩
    exact ⟨height, bound, highest⟩

private theorem slotIn_of_unfound {frames : List Scope} {name : Text}
    (unfound : ∀ scope ∈ frames, scope.get? name = none) (height : Nat) : slotIn frames height name = none := by
  induction frames with
  | nil => rfl
  | cons scope outer ih =>
    rw [slotIn]
    split
    · exact unfound scope (by simp)
    · exact ih fun other member => unfound other (by simp [member])

/-- A name that is bound anywhere stands for something. -/
theorem exists_resolves_of_slot {scopes : Scopes} {height : Nat} {name : Text} {binding : Binding}
    (bound : scopes.slot height name = some binding) :
    ∃ above found, scopes.Resolves name above found := by
  cases looked : scopes.lookup name with
  | none =>
    have unfound := List.findSome?_eq_none_iff.mp looked
    have unbound : scopes.slot height name = none := slotIn_of_unfound unfound height
    rw [unbound] at bound
    cases bound
  | some found =>
    obtain ⟨above, resolves⟩ := lookup_eq_some_iff.mp looked
    exact ⟨above, found, resolves⟩

theorem lookup_eq_none_iff {scopes : Scopes} {name : Text} :
    scopes.lookup name = none ↔ ∀ height, scopes.slot height name = none := by
  constructor
  · intro unfound
    exact slotIn_of_unfound (List.findSome?_eq_none_iff.mp unfound)
  · intro unbound
    cases found : scopes.lookup name with
    | none => rfl
    | some binding =>
      obtain ⟨height, resolves⟩ := lookup_eq_some_iff.mp found
      cases (unbound height).symm.trans resolves.bound

theorem slot_opened (scopes : Scopes) (height : Nat) (name : Text) :
    scopes.opened.slot height name = scopes.slot height name := by
  unfold slot
  rw [frames_opened, slotIn]
  split
  · next top => exact (slotIn_of_length_le name (Nat.le_of_eq top.symm)).symm
  · rfl

theorem depth_of_close {scopes after : Scopes} (closed : scopes.close = .ok after) :
    scopes.depth = after.depth + 1 := by
  obtain ⟨scope, same⟩ := close_eq_ok_iff.mp closed
  have lengths := congrArg List.length same
  rw [List.length_cons, length_frames, length_frames] at lengths
  omega

/-- Closing a scope leaves all the others as they are. -/
theorem slot_of_close {scopes after : Scopes} {height : Nat} (closed : scopes.close = .ok after)
    (name : Text) (remains : height ≤ after.depth) : after.slot height name = scopes.slot height name := by
  obtain ⟨scope, same⟩ := close_eq_ok_iff.mp closed
  unfold slot
  rw [same, slotIn, if_neg]
  rw [length_frames]
  omega

/-- A binding that is put into the current scope. -/
theorem slot_of_declared (scopes : Scopes) (binding : Binding) (height : Nat) (name : Text) :
    slot { scopes with current := binding :: scopes.current } height name =
      if height = scopes.depth ∧ binding.name = name then some binding else scopes.slot height name := by
  unfold slot frames
  rw [slotIn, slotIn]
  by_cases top : height = scopes.enclosing.length
  · rw [if_pos top, if_pos top, Scope.get?_cons]
    by_cases same : binding.name = name
    · rw [if_pos same, if_pos ⟨top, same⟩]
    · rw [if_neg same, if_neg fun both => same both.2]
  · rw [if_neg top, if_neg top, if_neg fun both => top both.1]

private theorem slotIn_assignIn_of_ne {name other : Text} (value : Option Text) (apart : other ≠ name)
    (frames : List Scope) (height : Nat) :
    slotIn (assignIn name value frames) height other = slotIn frames height other := by
  induction frames with
  | nil => rfl
  | cons scope outer ih =>
    rw [assignIn]
    split
    · rw [slotIn, slotIn, Scope.get?_assign_of_ne value apart]
    · rw [slotIn, slotIn, length_assignIn, ih]

private theorem slotIn_assignIn_of_highest {frames : List Scope} {name : Text} {height : Nat} {binding : Binding}
    (value : Option Text) (bound : slotIn frames height name = some binding)
    (highest : ∀ above, height < above → slotIn frames above name = none) :
    slotIn (assignIn name value frames) height name = some (binding.assigned value) ∧
      ∀ other, other ≠ height → slotIn (assignIn name value frames) other name = slotIn frames other name := by
  induction frames with
  | nil => cases bound
  | cons scope outer ih =>
    rw [assignIn]
    by_cases top : height = outer.length
    · rw [top, slotIn_cons_length] at bound
      have held : scope.contains name = true := by
        rw [Scope.contains, bound]
        rfl
      rw [if_pos held, top]
      refine ⟨?_, ?_⟩
      · rw [slotIn_cons_length]
        exact Scope.get?_assign_self value bound
      · intro other apart
        rw [slotIn_cons_of_ne _ name apart, slotIn_cons_of_ne _ name apart]
    · rw [slotIn_cons_of_ne scope name top] at bound
      have unbound := highest outer.length (lt_length_of_slotIn bound)
      rw [slotIn_cons_length] at unbound
      have unheld : ¬ scope.contains name = true := by
        rw [Scope.get?_eq_none_iff.mp unbound]
        exact Bool.false_ne_true
      obtain ⟨written, kept⟩ := ih bound (highest_of_cons highest)
      rw [if_neg unheld]
      refine ⟨?_, ?_⟩
      · rw [slotIn, length_assignIn, if_neg top]
        exact written
      · intro other apart
        rw [slotIn, slotIn, length_assignIn, kept other apart]

theorem slot_assign_of_ne {name other : Text} (value : Option Text) (apart : other ≠ name) (scopes : Scopes)
    (height : Nat) : (scopes.assign name value).slot height other = scopes.slot height other := by
  unfold slot
  rw [frames_assign]
  exact slotIn_assignIn_of_ne value apart scopes.frames height

/-- An assignment writes to what its name stands for, and to nothing else. -/
theorem slot_assign_of_resolves {scopes : Scopes} {name : Text} {height : Nat} {binding : Binding}
    (value : Option Text) (resolves : scopes.Resolves name height binding) :
    (scopes.assign name value).slot height name = some (binding.assigned value) ∧
      ∀ other, other ≠ height → (scopes.assign name value).slot other name = scopes.slot other name := by
  unfold slot
  rw [frames_assign]
  exact slotIn_assignIn_of_highest value resolves.bound resolves.highest

private theorem assignIn_of_unfound {name : Text} {frames : List Scope} (value : Option Text)
    (unfound : ∀ scope ∈ frames, scope.get? name = none) : assignIn name value frames = frames := by
  induction frames with
  | nil => rfl
  | cons scope outer ih =>
    have unheld := Scope.get?_eq_none_iff.mp (unfound scope (by simp))
    rw [assignIn, if_neg (by simp [unheld]), ih fun other member => unfound other (by simp [member])]

theorem eq_of_frames {first second : Scopes} (same : first.frames = second.frames) : first = second := by
  obtain ⟨current, enclosing⟩ := List.cons.inj same
  cases first
  cases second
  cases current
  cases enclosing
  rfl

/-- A name that stands for nothing is assigned to without effect. -/
theorem assign_of_unfound {scopes : Scopes} {name : Text} (value : Option Text) (unfound : scopes.lookup name = none) :
    scopes.assign name value = scopes := by
  apply eq_of_frames
  rw [frames_assign, assignIn_of_unfound value (List.findSome?_eq_none_iff.mp unfound)]

/-- What a name stands for depends on what is bound to that name. -/
theorem lookup_congr {first second : Scopes} {name : Text}
    (same : ∀ height, second.slot height name = first.slot height name) : second.lookup name = first.lookup name := by
  cases found : first.lookup name with
  | none =>
    have unbound := lookup_eq_none_iff.mp found
    exact lookup_eq_none_iff.mpr fun height => (same height).trans (unbound height)
  | some binding =>
    obtain ⟨height, bound, highest⟩ := lookup_eq_some_iff.mp found
    refine lookup_eq_some_iff.mpr ⟨height, (same height).trans bound, ?_⟩
    exact fun above higher => (same above).trans (highest above higher)

theorem lookup_assign_of_ne {name other : Text} (value : Option Text) (apart : other ≠ name) (scopes : Scopes) :
    (scopes.assign name value).lookup other = scopes.lookup other :=
  lookup_congr (slot_assign_of_ne value apart scopes)

/-- A variable that is assigned to is found again. -/
theorem lookup_assign_self {scopes : Scopes} {name : Text} {binding : Binding} (value : Option Text)
    (found : scopes.lookup name = some binding) :
    (scopes.assign name value).lookup name = some (binding.assigned value) := by
  obtain ⟨height, resolves⟩ := lookup_eq_some_iff.mp found
  obtain ⟨written, kept⟩ := slot_assign_of_resolves value resolves
  refine lookup_eq_some_iff.mpr ⟨height, written, ?_⟩
  intro above higher
  exact (kept above (Nat.ne_of_gt higher)).trans (resolves.highest above higher)

/-- The innermost scope is asked first. -/
theorem lookup_above (scope : Scope) (outer : Scopes) (name : Text) :
    lookup ⟨scope, outer.frames⟩ name = (scope.get? name).or (outer.lookup name) := by
  rw [lookup, frames, List.findSome?_cons]
  cases scope.get? name <;> rfl

theorem assign_above (name : Text) (value : Option Text) (scope : Scope) (outer : Scopes) :
    assign name value ⟨scope, outer.frames⟩ =
      if scope.contains name then ⟨scope.assign name value, outer.frames⟩
      else ⟨scope, (outer.assign name value).frames⟩ := by
  rw [frames_assign]
  rfl

end Scopes
end Linewise
