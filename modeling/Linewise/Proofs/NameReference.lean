import Linewise.Proofs.BlockDepth
import Linewise.Proofs.ScopeHeights
import Linewise.VariableLine

/-! What a name stands for at a place in a body can be told from the lines before it: from the
declarations whose blocks are still open there, from the parameters, and from what the name
stood for outside. No line has to be checked to tell it. -/

namespace Linewise

/-- One fragment of a declaration, with what stands in front of all its fragments. -/
structure Declared where
  isFinal : Bool
  ty : Ty
  fragment : Fragment
  deriving DecidableEq, Repr

def declaredIn (line : Text) : List Declared :=
  match Statement.ofLine line, Statement.typed? line.trim with
  | some .declaration, some (isFinal, ty, rest) => (VariableLine.fragmentsOf rest).map (Declared.mk isFinal ty)
  | _, _ => []

def assignedIn (line : Text) : List Fragment :=
  match Statement.ofLine line with
  | some .assignment => VariableLine.fragmentsOf line.trim
  | _ => []

theorem declaredIn_of_typed? {line rest : Text} {isFinal : Bool} {ty : Ty}
    (known : Statement.ofLine line = some .declaration)
    (typed : Statement.typed? line.trim = some (isFinal, ty, rest)) :
    declaredIn line = (VariableLine.fragmentsOf rest).map (Declared.mk isFinal ty) := by
  unfold declaredIn
  rw [known, typed]

theorem declaredIn_of_ne {line : Text} (other : Statement.ofLine line ≠ some .declaration) :
    declaredIn line = [] := by
  unfold declaredIn
  split
  · next known _ => exact absurd known other
  · rfl

theorem assignedIn_of_ofLine {line : Text} (known : Statement.ofLine line = some .assignment) :
    assignedIn line = VariableLine.fragmentsOf line.trim := by
  unfold assignedIn
  rw [known]

theorem assignedIn_of_ne {line : Text} (other : Statement.ofLine line ≠ some .assignment) :
    assignedIn line = [] := by
  unfold assignedIn
  split
  · next known => exact absurd known other
  · rfl

theorem ofLine_of_mem_declaredIn {line : Text} {declared : Declared} (member : declared ∈ declaredIn line) :
    Statement.ofLine line = some .declaration := by
  apply Decidable.byContradiction
  intro other
  rw [declaredIn_of_ne other] at member
  cases member

theorem ofLine_of_mem_assignedIn {line : Text} {fragment : Fragment} (member : fragment ∈ assignedIn line) :
    Statement.ofLine line = some .assignment := by
  apply Decidable.byContradiction
  intro other
  rw [assignedIn_of_ne other] at member
  cases member

structure Visit where
  method : Method
  outer : Scopes

inductive Referent
  | declaration (index : Nat) (declared : Declared)
  | parameter (parameter : Parameter)
  | outer (height : Nat)

namespace Visit

variable (visit : Visit)

def depthAt (count : Nat) : Int :=
  depthFrom 1 (visit.method.body.take count)

def declaredAt (index : Nat) : List Declared :=
  visit.method.body[index]?.elim [] declaredIn

def assignedAt (index : Nat) : List Fragment :=
  visit.method.body[index]?.elim [] assignedIn

/-- Parameters are known in the scope of the method, a declaration in that of its block. -/
def height : Referent → Nat
  | .declaration index _ => visit.outer.depth + (visit.depthAt index).toNat
  | .parameter _ => visit.outer.depth + 1
  | .outer height => height

inductive Origin (name : Text) : Referent → Binding → Prop where
  | declaration {index declared value} (member : declared ∈ visit.declaredAt index)
      (named : declared.fragment.name = name) :
      Origin name (.declaration index declared)
        ⟨name, declared.ty, declared.isFinal, declared.fragment.value?.isSome, value⟩
  | parameter {parameter} (member : parameter ∈ visit.method.parameters) (named : parameter.name = name) :
      Origin name (.parameter parameter) (.ofParameter parameter)
  | outer {height binding} (bound : visit.outer.slot height name = some binding) :
      Origin name (.outer height) binding

/-- The block that a variable belongs to has not been closed by the first lines. -/
def InForce (count : Nat) : Referent → Prop
  | .declaration index _ =>
    index < count ∧ ∀ later, index < later → later ≤ count → visit.depthAt index ≤ visit.depthAt later
  | .parameter _ => ∀ later ≤ count, 1 ≤ visit.depthAt later
  | .outer _ => True

def Lives (count : Nat) (name : Text) (referent : Referent) : Prop :=
  (∃ binding, visit.Origin name referent binding) ∧ visit.InForce count referent

/-- After the first lines, a name stands for the declaration at the greatest depth that is
still in force. Where there is none, it stands for a parameter, and else for what it stood
for outside. -/
inductive Refers (count : Nat) (name : Text) : Referent → Prop where
  | declaration {index declared} (lives : visit.Lives count name (.declaration index declared))
      (deepest : ∀ other found, visit.Lives count name (.declaration other found) →
        visit.depthAt other ≤ visit.depthAt index) : Refers count name (.declaration index declared)
  | parameter {parameter} (undeclared : ∀ index declared, ¬ visit.Lives count name (.declaration index declared))
      (lives : visit.Lives count name (.parameter parameter)) : Refers count name (.parameter parameter)
  | outer {height binding} (undeclared : ∀ index declared, ¬ visit.Lives count name (.declaration index declared))
      (unnamed : ∀ parameter, ¬ visit.Lives count name (.parameter parameter))
      (resolves : visit.outer.Resolves name height binding) : Refers count name (.outer height)

def Assigned (count : Nat) (name : Text) (referent : Referent) : Prop :=
  ∃ index < count, (∃ fragment ∈ visit.assignedAt index, fragment.name = name) ∧ visit.Refers index name referent

def LivesWith (count : Nat) (name : Text) (referent : Referent) : Prop :=
  visit.Lives count name referent ∨ ∃ declared ∈ visit.declaredAt count,
    referent = .declaration count declared ∧ declared.fragment.name = name

def AssignedWith (count : Nat) (name : Text) (referent : Referent) : Prop :=
  visit.Assigned count name referent ∨
    (∃ fragment ∈ visit.assignedAt count, fragment.name = name) ∧ visit.Refers count name referent

/-- A binding is that of a variable. It has its name, type and finality, and is initialized if
it was so at first or has been assigned to. -/
def Describes (assigned : Text → Referent → Prop) (name : Text) (referent : Referent) (binding : Binding) : Prop :=
  ∃ first, visit.Origin name referent first ∧ binding.name = first.name ∧ binding.ty = first.ty ∧
    binding.isFinal = first.isFinal ∧
    (binding.isInitialized = true ↔ first.isInitialized = true ∨ assigned name referent)

variable {visit}

@[simp] theorem height_declaration (index : Nat) (declared : Declared) :
    visit.height (.declaration index declared) = visit.outer.depth + (visit.depthAt index).toNat :=
  rfl

@[simp] theorem height_parameter (parameter : Parameter) :
    visit.height (.parameter parameter) = visit.outer.depth + 1 :=
  rfl

@[simp] theorem height_outer (height : Nat) : visit.height (.outer height) = height :=
  rfl

theorem body_take_succ {count : Nat} {line : Text} (here : visit.method.body[count]? = some line) :
    visit.method.body.take (count + 1) = visit.method.body.take count ++ [line] := by
  rw [List.take_add_one, here]
  rfl

theorem body_take_succ_of_none {count : Nat} (beyond : visit.method.body[count]? = none) :
    visit.method.body.take (count + 1) = visit.method.body.take count := by
  rw [List.take_add_one, beyond]
  exact List.append_nil _

theorem depthAt_succ {count : Nat} {line : Text} (here : visit.method.body[count]? = some line) :
    visit.depthAt (count + 1) = visit.depthAt count + weightOf line := by
  unfold depthAt
  rw [body_take_succ here, depthFrom_append]
  simp

theorem declaredAt_of_some {index : Nat} {line : Text} (here : visit.method.body[index]? = some line) :
    visit.declaredAt index = declaredIn line := by
  unfold declaredAt
  rw [here]
  rfl

theorem assignedAt_of_some {index : Nat} {line : Text} (here : visit.method.body[index]? = some line) :
    visit.assignedAt index = assignedIn line := by
  unfold assignedAt
  rw [here]
  rfl

theorem lives_declaration_iff {count index : Nat} {name : Text} {declared : Declared} :
    visit.Lives count name (.declaration index declared) ↔
      declared ∈ visit.declaredAt index ∧ declared.fragment.name = name ∧
        visit.InForce count (.declaration index declared) := by
  constructor
  · intro ⟨⟨binding, origin⟩, inForce⟩
    cases origin with
    | declaration member named => exact ⟨member, named, inForce⟩
  · intro ⟨member, named, inForce⟩
    exact ⟨⟨⟨name, declared.ty, declared.isFinal, declared.fragment.value?.isSome, none⟩,
      .declaration member named⟩, inForce⟩

theorem lives_parameter_iff {count : Nat} {name : Text} {parameter : Parameter} :
    visit.Lives count name (.parameter parameter) ↔
      parameter ∈ visit.method.parameters ∧ parameter.name = name ∧
        visit.InForce count (.parameter parameter) := by
  constructor
  · intro ⟨⟨binding, origin⟩, inForce⟩
    cases origin with
    | parameter member named => exact ⟨member, named, inForce⟩
  · intro ⟨member, named, inForce⟩
    exact ⟨⟨_, .parameter member named⟩, inForce⟩

theorem lives_outer_iff {count height : Nat} {name : Text} :
    visit.Lives count name (.outer height) ↔ ∃ binding, visit.outer.slot height name = some binding := by
  constructor
  · intro ⟨⟨binding, origin⟩, _⟩
    cases origin with
    | outer bound => exact ⟨binding, bound⟩
  · intro ⟨binding, bound⟩
    exact ⟨⟨binding, .outer bound⟩, trivial⟩

private theorem inForce_declaration_succ {count index : Nat} {declared : Declared} :
    visit.InForce (count + 1) (.declaration index declared) ↔
      (visit.InForce count (.declaration index declared) ∨ index = count) ∧
        visit.depthAt index ≤ visit.depthAt (count + 1) := by
  constructor
  · intro ⟨earlier, stays⟩
    refine ⟨?_, stays (count + 1) earlier (Nat.le_refl _)⟩
    by_cases last : index = count
    · exact Or.inr last
    · exact Or.inl ⟨by omega, fun later after upto => stays later after (by omega)⟩
  · intro ⟨before, ends⟩
    have earlier : index < count + 1 := by
      rcases before with ⟨earlier, _⟩ | rfl
      · omega
      · omega
    refine ⟨earlier, ?_⟩
    intro later after upto
    by_cases last : later = count + 1
    · rw [last]
      exact ends
    · rcases before with ⟨_, stays⟩ | rfl
      · exact stays later after (by omega)
      · omega

private theorem inForce_parameter_succ {count : Nat} {parameter : Parameter} :
    visit.InForce (count + 1) (.parameter parameter) ↔
      visit.InForce count (.parameter parameter) ∧ 1 ≤ visit.depthAt (count + 1) := by
  constructor
  · intro stays
    exact ⟨fun later upto => stays later (by omega), stays (count + 1) (Nat.le_refl _)⟩
  · intro ⟨stays, ends⟩ later upto
    by_cases last : later = count + 1
    · rw [last]
      exact ends
    · exact stays later (by omega)

/-- A line adds what it declares, and what lies above the depth it leads to is gone. -/
theorem lives_succ_iff {count next : Nat} {name : Text} {referent : Referent}
    (reached : (next : Int) = visit.depthAt (count + 1)) :
    visit.Lives (count + 1) name referent ↔
      visit.LivesWith count name referent ∧ visit.height referent ≤ visit.outer.depth + next := by
  unfold LivesWith
  cases referent with
  | declaration index declared =>
    have low : visit.height (.declaration index declared) ≤ visit.outer.depth + next ↔
        visit.depthAt index ≤ visit.depthAt (count + 1) := by
      rw [height_declaration]
      omega
    rw [lives_declaration_iff, lives_declaration_iff, inForce_declaration_succ, low]
    constructor
    · intro ⟨member, named, before, ends⟩
      refine ⟨?_, ends⟩
      rcases before with inForce | rfl
      · exact Or.inl ⟨member, named, inForce⟩
      · exact Or.inr ⟨declared, member, rfl, named⟩
    · intro ⟨before, ends⟩
      rcases before with ⟨member, named, inForce⟩ | ⟨_, member, same, named⟩
      · exact ⟨member, named, Or.inl inForce, ends⟩
      · cases same
        exact ⟨member, named, Or.inr rfl, ends⟩
  | parameter parameter =>
    have low : visit.height (.parameter parameter) ≤ visit.outer.depth + next ↔
        1 ≤ visit.depthAt (count + 1) := by
      rw [height_parameter]
      omega
    rw [lives_parameter_iff, lives_parameter_iff, inForce_parameter_succ, low]
    constructor
    · intro ⟨member, named, inForce, ends⟩
      exact ⟨Or.inl ⟨member, named, inForce⟩, ends⟩
    · intro ⟨before, ends⟩
      rcases before with ⟨member, named, inForce⟩ | ⟨_, _, same, _⟩
      · exact ⟨member, named, inForce, ends⟩
      · cases same
  | outer height =>
    rw [lives_outer_iff, lives_outer_iff]
    constructor
    · intro ⟨binding, bound⟩
      exact ⟨Or.inl ⟨binding, bound⟩, Nat.le_add_right_of_le (Scopes.height_le_of_slot bound)⟩
    · intro ⟨before, _⟩
      rcases before with bound | ⟨_, _, same, _⟩
      · exact bound
      · cases same

/-- Before the first line there are the parameters, and what is known outside. -/
theorem lives_zero_iff {name : Text} {referent : Referent} :
    visit.Lives 0 name referent ↔
      (∃ height binding, referent = .outer height ∧ visit.outer.slot height name = some binding) ∨
        ∃ parameter ∈ visit.method.parameters, name = parameter.name ∧ referent = .parameter parameter := by
  cases referent with
  | declaration index declared =>
    rw [lives_declaration_iff]
    constructor
    · intro ⟨_, _, earlier, _⟩
      exact absurd earlier (Nat.not_lt_zero index)
    · intro lives
      rcases lives with ⟨_, _, kind, _⟩ | ⟨_, _, _, kind⟩ <;> cases kind
  | parameter parameter =>
    rw [lives_parameter_iff]
    constructor
    · intro ⟨member, named, _⟩
      exact Or.inr ⟨parameter, member, named.symm, rfl⟩
    · intro lives
      rcases lives with ⟨_, _, kind, _⟩ | ⟨_, member, named, kind⟩
      · cases kind
      · cases kind
        refine ⟨member, named.symm, ?_⟩
        intro later upto
        cases Nat.le_zero.mp upto
        exact Int.le_refl 1
  | outer height =>
    rw [lives_outer_iff]
    constructor
    · intro ⟨binding, bound⟩
      exact Or.inl ⟨height, binding, rfl, bound⟩
    · intro lives
      rcases lives with ⟨_, binding, kind, bound⟩ | ⟨_, _, _, kind⟩
      · cases kind
        exact ⟨binding, bound⟩
      · cases kind

theorem not_assigned_zero {name : Text} {referent : Referent} : ¬ visit.Assigned 0 name referent := by
  intro ⟨index, earlier, _⟩
  exact Nat.not_lt_zero index earlier

theorem assigned_succ_iff {count : Nat} {name : Text} {referent : Referent} :
    visit.Assigned (count + 1) name referent ↔ visit.AssignedWith count name referent := by
  constructor
  · intro ⟨index, earlier, assigns, refers⟩
    by_cases last : index = count
    · cases last
      exact Or.inr ⟨assigns, refers⟩
    · exact Or.inl ⟨index, by omega, assigns, refers⟩
  · intro assigned
    rcases assigned with ⟨index, earlier, assigns, refers⟩ | ⟨assigns, refers⟩
    · exact ⟨index, by omega, assigns, refers⟩
    · exact ⟨count, by omega, assigns, refers⟩

theorem livesWith_iff_of_ne {count : Nat} {line name : Text} {referent : Referent}
    (here : visit.method.body[count]? = some line) (other : Statement.ofLine line ≠ some .declaration) :
    visit.LivesWith count name referent ↔ visit.Lives count name referent := by
  unfold LivesWith
  rw [declaredAt_of_some here, declaredIn_of_ne other]
  simp

theorem assignedWith_iff_of_ne {count : Nat} {line name : Text} {referent : Referent}
    (here : visit.method.body[count]? = some line) (other : Statement.ofLine line ≠ some .assignment) :
    visit.AssignedWith count name referent ↔ visit.Assigned count name referent := by
  unfold AssignedWith
  rw [assignedAt_of_some here, assignedIn_of_ne other]
  simp

/-- No line before a declaration can assign to what is declared there. -/
theorem not_assigned_declaration {count : Nat} {name : Text} {declared : Declared} :
    ¬ visit.Assigned count name (.declaration count declared) := by
  intro ⟨index, earlier, _, refers⟩
  cases refers with
  | declaration lives deepest =>
    have after := lives.2.1
    omega

end Visit
end Linewise
