import Linewise.Proofs.NameReference
import Linewise.Proofs.VariableEffects

/-! Scopes may hold just the variables that are live, each bound in the scope of its block.
What changes the scopes changes the live variables with them: a new scope adds none, a scope
that is closed takes its own away, a declaration adds one, and an assignment is found again
in the variable that its name stands for. -/

namespace Linewise

namespace Visit
open Run

variable (visit : Visit)

/-- The scopes hold the live variables, each at its height and no two in one place. -/
structure Reflects (live assigned : Text → Referent → Prop) (scopes : Scopes) : Prop where
  held : ∀ name referent, live name referent → ∃ binding,
    scopes.slot (visit.height referent) name = some binding ∧ visit.Describes assigned name referent binding
  known : ∀ name height binding, scopes.slot height name = some binding →
    ∃ referent, live name referent ∧ visit.height referent = height
  apart : ∀ name referent other, live name referent → live name other →
    visit.height referent = visit.height other → referent = other

def Highest (live : Text → Referent → Prop) (name : Text) (referent : Referent) : Prop :=
  live name referent ∧ ∀ other, live name other → visit.height other ≤ visit.height referent

variable {visit} {live assigned : Text → Referent → Prop} {scopes after : Scopes}

theorem Describes.congr {others : Text → Referent → Prop} {name : Text} {referent : Referent} {binding : Binding}
    (describes : visit.Describes assigned name referent binding)
    (same : others name referent ↔ assigned name referent) : visit.Describes others name referent binding := by
  obtain ⟨first, origin, named, typed, final, initialized⟩ := describes
  exact ⟨first, origin, named, typed, final, by rw [same]; exact initialized⟩

/-- A binding that is assigned to is one that its variable was assigned to. -/
theorem Describes.written {others : Text → Referent → Prop} {name : Text} {referent : Referent}
    {binding : Binding} (describes : visit.Describes assigned name referent binding) (value : Option Text)
    (now : others name referent) : visit.Describes others name referent (binding.assigned value) := by
  obtain ⟨first, origin, named, typed, final, _⟩ := describes
  exact ⟨first, origin, named, typed, final, fun _ => Or.inr now, fun _ => rfl⟩

namespace Reflects

theorem congr {lives others : Text → Referent → Prop} (reflects : visit.Reflects live assigned scopes)
    (same : ∀ name referent, lives name referent ↔ live name referent)
    (alike : ∀ name referent, others name referent ↔ assigned name referent) :
    visit.Reflects lives others scopes := by
  refine ⟨?_, ?_, ?_⟩
  · intro name referent lives
    obtain ⟨binding, bound, describes⟩ := reflects.held name referent ((same name referent).mp lives)
    exact ⟨binding, bound, describes.congr (alike name referent)⟩
  · intro name height binding bound
    obtain ⟨referent, lives, level⟩ := reflects.known name height binding bound
    exact ⟨referent, (same name referent).mpr lives, level⟩
  · intro name referent other lives living
    exact reflects.apart name referent other ((same name referent).mp lives) ((same name other).mp living)

/-- The scopes that the check begins in hold what is known outside. -/
theorem outer : visit.Reflects
    (fun name referent => ∃ height binding, referent = .outer height ∧
      visit.outer.slot height name = some binding) (fun _ _ => False) visit.outer := by
  refine ⟨?_, ?_, ?_⟩
  · intro name referent ⟨height, binding, kind, bound⟩
    subst kind
    exact ⟨binding, bound, binding, .outer bound, rfl, rfl, rfl, Or.inl, fun first => first.resolve_right id⟩
  · intro name height binding bound
    exact ⟨.outer height, ⟨height, binding, rfl, bound⟩, rfl⟩
  · intro name referent other ⟨height, _, first, _⟩ ⟨above, _, second, _⟩ level
    subst first second
    exact congrArg Referent.outer level

theorem opened (reflects : visit.Reflects live assigned scopes) : visit.Reflects live assigned scopes.opened := by
  refine ⟨?_, ?_, reflects.apart⟩
  · intro name referent lives
    rw [Scopes.slot_opened]
    exact reflects.held name referent lives
  · intro name height binding bound
    rw [Scopes.slot_opened] at bound
    exact reflects.known name height binding bound

theorem height_le {name : Text} {referent : Referent} (reflects : visit.Reflects live assigned scopes)
    (lives : live name referent) : visit.height referent ≤ scopes.depth := by
  obtain ⟨binding, bound, _⟩ := reflects.held name referent lives
  exact Scopes.height_le_of_slot bound

/-- No live variable is higher than the scopes are. -/
theorem bounded (reflects : visit.Reflects live assigned scopes) :
    visit.Reflects (fun name referent => live name referent ∧ visit.height referent ≤ scopes.depth) assigned
      scopes := by
  refine reflects.congr ?_ fun _ _ => Iff.rfl
  intro name referent
  constructor
  · exact And.left
  · intro lives
    exact ⟨lives, reflects.height_le lives⟩

/-- The variables of the scope that is closed are no longer live. -/
theorem close (reflects : visit.Reflects live assigned scopes) (closed : scopes.close = .ok after) :
    visit.Reflects (fun name referent => live name referent ∧ visit.height referent ≤ after.depth) assigned after := by
  refine ⟨?_, ?_, ?_⟩
  · intro name referent ⟨lives, remains⟩
    rw [Scopes.slot_of_close closed name remains]
    exact reflects.held name referent lives
  · intro name height binding bound
    have remains := Scopes.height_le_of_slot bound
    rw [Scopes.slot_of_close closed name remains] at bound
    obtain ⟨referent, lives, level⟩ := reflects.known name height binding bound
    exact ⟨referent, ⟨lives, by omega⟩, level⟩
  · intro name referent other ⟨lives, _⟩ ⟨living, _⟩
    exact reflects.apart name referent other lives living

/-- A name that the current scope does not know yet is bound there to a new variable. -/
theorem declared {binding : Binding} {name : Text} {referent : Referent}
    (reflects : visit.Reflects live assigned scopes) (fresh : scopes.current.contains name = false)
    (named : binding.name = name) (origin : visit.Origin name referent binding)
    (level : visit.height referent = scopes.depth) (unassigned : ¬ assigned name referent) :
    visit.Reflects (fun other found => live other found ∨ other = name ∧ found = referent) assigned
      { scopes with current := binding :: scopes.current } := by
  have unbound : scopes.slot scopes.depth name = none := by
    rw [Scopes.slot_depth]
    exact Scope.get?_eq_none_iff.mpr fresh
  have elsewhere : ∀ found, live name found → visit.height found ≠ scopes.depth := by
    intro found lives top
    obtain ⟨_, bound, _⟩ := reflects.held name found lives
    rw [top, unbound] at bound
    cases bound
  refine ⟨?_, ?_, ?_⟩
  · intro other found lives
    rw [Scopes.slot_of_declared]
    rcases lives with lives | ⟨rfl, rfl⟩
    · rw [if_neg]
      · exact reflects.held other found lives
      · intro ⟨top, same⟩
        cases named.symm.trans same
        exact elsewhere found lives top
    · rw [if_pos ⟨level, named⟩]
      refine ⟨binding, rfl, binding, origin, rfl, rfl, rfl, ?_⟩
      constructor
      · exact Or.inl
      · intro initialized
        exact initialized.resolve_right unassigned
  · intro other height held bound
    rw [Scopes.slot_of_declared] at bound
    split at bound
    · next here => exact ⟨referent, Or.inr ⟨here.2.symm.trans named, rfl⟩, level.trans here.1.symm⟩
    · obtain ⟨found, lives, same⟩ := reflects.known other height held bound
      exact ⟨found, Or.inl lives, same⟩
  · intro other first second lives living same
    rcases lives with lives | ⟨rfl, rfl⟩
    · rcases living with living | ⟨rfl, rfl⟩
      · exact reflects.apart other first second lives living same
      · exact absurd (same.trans level) (elsewhere first lives)
    · rcases living with living | ⟨_, rfl⟩
      · exact absurd (same.symm.trans level) (elsewhere second living)
      · rfl

/-- What a name resolves to is the highest live variable of that name. -/
theorem exists_highest {name : Text} {height : Nat} {binding : Binding}
    (reflects : visit.Reflects live assigned scopes) (resolves : scopes.Resolves name height binding) :
    ∃ referent, visit.Highest live name referent ∧ visit.height referent = height := by
  obtain ⟨referent, lives, level⟩ := reflects.known name height binding resolves.bound
  refine ⟨referent, ⟨lives, ?_⟩, level⟩
  intro other living
  apply Nat.le_of_not_lt
  intro higher
  obtain ⟨_, bound, _⟩ := reflects.held name other living
  rw [resolves.highest (visit.height other) (by omega)] at bound
  cases bound

theorem resolves_of_highest {name : Text} {referent : Referent} (reflects : visit.Reflects live assigned scopes)
    (highest : visit.Highest live name referent) :
    ∃ binding, scopes.Resolves name (visit.height referent) binding ∧
      visit.Describes assigned name referent binding := by
  obtain ⟨lives, top⟩ := highest
  obtain ⟨binding, bound, describes⟩ := reflects.held name referent lives
  refine ⟨binding, ⟨bound, ?_⟩, describes⟩
  intro above higher
  cases there : scopes.slot above name with
  | none => rfl
  | some found =>
    obtain ⟨other, living, level⟩ := reflects.known name above found there
    have below := top other living
    omega

/-- An assignment changes the highest live variable of its name, and no other. -/
theorem assign {name : Text} {target : Binding} (reflects : visit.Reflects live assigned scopes)
    (found : scopes.lookup name = some target) (value : Option Text) :
    visit.Reflects live (fun other referent => assigned other referent ∨
      name = other ∧ visit.Highest live other referent) (scopes.assign name value) := by
  obtain ⟨height, resolves⟩ := Scopes.lookup_eq_some_iff.mp found
  obtain ⟨highest, top, level⟩ := reflects.exists_highest resolves
  obtain ⟨written, kept⟩ := Scopes.slot_assign_of_resolves value resolves
  refine ⟨?_, ?_, reflects.apart⟩
  · intro other referent lives
    obtain ⟨binding, bound, describes⟩ := reflects.held other referent lives
    by_cases same : other = name
    · subst same
      by_cases here : visit.height referent = height
      · cases reflects.apart other referent highest lives top.1 (here.trans level.symm)
        rw [here] at bound ⊢
        cases bound.symm.trans resolves.bound
        exact ⟨_, written, describes.written value (Or.inr ⟨rfl, top⟩)⟩
      · -- a lower variable of the same name is hidden, so it keeps what it is bound to
        refine ⟨binding, (kept _ here).trans bound, describes.congr ⟨?_, Or.inl⟩⟩
        intro written
        rcases written with written | ⟨_, highest⟩
        · exact written
        · have below := top.2 referent lives
          have above := highest.2 _ top.1
          omega
    · refine ⟨binding, (Scopes.slot_assign_of_ne value same scopes _).trans bound, describes.congr ⟨?_, Or.inl⟩⟩
      intro written
      rcases written with written | ⟨named, _⟩
      · exact written
      · exact absurd named.symm same
  · intro other above binding bound
    by_cases same : other = name
    · subst same
      by_cases here : above = height
      · exact ⟨highest, top.1, level.trans here.symm⟩
      · rw [kept above here] at bound
        exact reflects.known other above binding bound
    · rw [Scopes.slot_assign_of_ne value same] at bound
      exact reflects.known other above binding bound

/-- A row of steps, each of which binds a new name in the current scope. -/
theorem row {α : Type} {items : List α} {each : α → Scopes → Except Fault Scopes} (name : α → Text)
    (label : α → Referent) (reflects : visit.Reflects live assigned scopes)
    (binds : ∀ item ∈ items, ∀ scopes last, each item scopes = .ok last → ∃ binding,
      scopes.current.contains (name item) = false ∧ binding.name = name item ∧
        visit.Origin (name item) (label item) binding ∧
        last = { scopes with current := binding :: scopes.current })
    (levels : ∀ item ∈ items, visit.height (label item) = scopes.depth)
    (unassigned : ∀ item ∈ items, ¬ assigned (name item) (label item))
    (passed : ending (items.forM fun item => step (each item)) scopes = (.ok (), after)) :
    after.depth = scopes.depth ∧
      visit.Reflects (fun other referent => live other referent ∨
        ∃ item ∈ items, other = name item ∧ referent = label item) assigned after := by
  induction items generalizing scopes live with
  | nil =>
    cases passed
    exact ⟨rfl, reflects.congr (by simp) fun _ _ => Iff.rfl⟩
  | cons item items ih =>
    obtain ⟨middle, first, rest⟩ := ending_forM_cons_eq_ok_iff.mp passed
    obtain ⟨binding, fresh, named, origin, rfl⟩ :=
      binds item (by simp) scopes middle (ending_step_eq_ok_iff.mp first)
    have now := reflects.declared fresh named origin (levels item (by simp)) (unassigned item (by simp))
    obtain ⟨depth, later⟩ := ih now (fun other member => binds other (by simp [member]))
      (fun other member => levels other (by simp [member]))
      (fun other member => unassigned other (by simp [member])) rest
    refine ⟨depth, later.congr ?_ fun _ _ => Iff.rfl⟩
    intro other referent
    simp only [List.mem_cons, or_and_right, exists_or, exists_eq_left, or_assoc]

/-- The fragments of an assignment, each of which changes what its name stands for. -/
theorem assignments {fragments : List Fragment} (reflects : visit.Reflects live assigned scopes)
    (passed : ending (fragments.forM fun fragment => step (Check.assign fragment)) scopes = (.ok (), after)) :
    after.depth = scopes.depth ∧
      visit.Reflects live (fun name referent => assigned name referent ∨
        (∃ fragment ∈ fragments, fragment.name = name) ∧ visit.Highest live name referent) after := by
  induction fragments generalizing scopes assigned with
  | nil =>
    cases passed
    exact ⟨rfl, reflects.congr (fun _ _ => Iff.rfl) (by simp)⟩
  | cons fragment fragments ih =>
    obtain ⟨middle, first, rest⟩ := ending_forM_cons_eq_ok_iff.mp passed
    obtain ⟨target, stored, found, -, rfl⟩ := VariableEffects.exists_of_assign (ending_step_eq_ok_iff.mp first)
    obtain ⟨depth, later⟩ := ih (reflects.assign found stored) rest
    refine ⟨depth.trans (Scopes.depth_assign _ _ _), later.congr (fun _ _ => Iff.rfl) ?_⟩
    intro name referent
    simp only [List.mem_cons, or_and_right, exists_or, exists_eq_left, or_assoc]

end Reflects
end Visit
end Linewise
