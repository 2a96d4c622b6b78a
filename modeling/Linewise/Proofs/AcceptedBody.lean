import Linewise.Proofs.ArgumentCount
import Linewise.Proofs.LexicalScoping

/-! What a method is like whose check ends well. Each line of its body was reached with the
scopes that the lines before it leave and was accepted there, and so whatever the check asks of
a line can be said of the text. -/

namespace Linewise

def Visit.SameBlock (visit : Visit) (first last : Nat) : Prop :=
  visit.depthAt last = visit.depthAt first ∧
    ∀ between, first ≤ between → between ≤ last → visit.depthAt first ≤ visit.depthAt between

structure Visit.Assignable (visit : Visit) (count : Nat) (name : Text) : Prop where
  known : ∃ referent, visit.Refers count name referent
  changeable : ∀ referent binding, visit.Refers count name referent → visit.Origin name referent binding →
    binding.isFinal = false

/-- What a check that ends well has made sure of: the body returns at its end, the calls in it
are of the methods given, names are declared once in their block, and what is assigned to is
not final. -/
structure Visit.Sound (visit : Visit) (methods : List Method) : Prop where
  parameters : (visit.method.parameters.map Parameter.name).Nodup
  returns : visit.method.body = [['}']] ∨
    ∃ front, visit.method.body = front ++ [Keyword.ret ++ [';'], ['}']] ∧ depthFrom 1 front = 1
  calls : ∀ line ∈ visit.method.body, ∀ callee given, Statement.ofLine line = some (.call callee given) →
    ∃ target ∈ methods, target.name = callee ∧ Check.argumentCount given = target.parameters.length
  fragments : ∀ line ∈ visit.method.body, ((declaredIn line).map (·.fragment.name)).Nodup
  blocks : ∀ first last, first < last → visit.SameBlock first last →
    ∀ declared ∈ visit.declaredAt first, ∀ other ∈ visit.declaredAt last,
      declared.fragment.name ≠ other.fragment.name
  topLevel : ∀ index, visit.depthAt index = 1 → ∀ declared ∈ visit.declaredAt index,
    ∀ parameter ∈ visit.method.parameters, declared.fragment.name ≠ parameter.name
  assignments : ∀ index, ∀ fragment ∈ visit.assignedAt index, visit.Assignable index fragment.name

namespace Visit
open Run

variable {visit : Visit} {methods : MethodTable} {scopes : Scopes} {index : Nat} {line : Text}

private theorem line_of_trailingReturn {checked : Method} {before after : Scopes}
    (passed : ending (Check.trailingReturn checked) before = (.ok (), after))
    (there : checked.body.dropLast.getLast? = some line) : line.trim = Keyword.ret ++ [';'] := by
  unfold Check.trailingReturn at passed
  rw [there] at passed
  dsimp only at passed
  split at passed
  · assumption
  · cases passed

private theorem weightOf_ret : weightOf (Keyword.ret ++ [';']) = 0 := by
  decide

/-- The lines of a source have no blanks around them, so that a return and a brace are spelled
in one way only. -/
theorem returns_of_method {checked : Method} {before after : Scopes}
    (passed : ending (Check.method methods checked) before = (.ok (), after))
    (trimmed : ∀ line ∈ checked.body, line.trim = line) :
    checked.body = [['}']] ∨
      ∃ front, checked.body = front ++ [Keyword.ret ++ [';'], ['}']] ∧ depthFrom 1 front = 1 := by
  obtain ⟨front, last, whole, level, known⟩ := (BodySteps.closes_of_method passed).exists_concat
  obtain ⟨_, _, returned, _⟩ := ending_bind_eq_ok_iff.mp passed
  have brace : last = ['}'] := by
    rw [← trimmed last (by simp [whole])]
    exact Statement.fits_of_ofLine known
  subst brace
  rcases List.eq_nil_or_concat front with rfl | ⟨front, line, rfl⟩
  · exact Or.inl whole
  · rw [List.concat_eq_append] at whole level
    have there : checked.body.dropLast.getLast? = some line := by
      rw [whole, List.dropLast_concat, List.getLast?_concat]
    have spelled := line_of_trailingReturn returned there
    rw [trimmed line (by simp [whole])] at spelled
    subst spelled
    rw [depthFrom_append, depthFrom_cons, depthFrom_nil, weightOf_ret, Int.add_zero] at level
    exact Or.inr ⟨front, by rw [whole, List.append_assoc]; rfl, level⟩

theorem parameters_of_method {checked : Method} {before after : Scopes}
    (passed : ending (Check.method methods checked) before = (.ok (), after)) :
    (checked.parameters.map Parameter.name).Nodup := by
  obtain ⟨_, _, _, passed⟩ := ending_bind_eq_ok_iff.mp passed
  obtain ⟨_, _, _, passed⟩ := ending_bind_eq_ok_iff.mp passed
  obtain ⟨_, _, named, _⟩ := ending_bind_eq_ok_iff.mp passed
  exact VariableRows.distinct_parameters named

/-- The check has come to each line, and has accepted it there. -/
theorem exists_accepts {statement : Statement} {last : Scopes}
    (passed : ending (Check.method methods visit.method) visit.outer = (.ok (), last))
    (here : visit.method.body[index]? = some line) (known : Statement.ofLine line = some statement) :
    ∃ depth before next after, visit.Tracks index depth before ∧
      BodySteps.Accepts methods line statement depth before next after ∧ visit.Tracks (index + 1) next after := by
  rw [visit.method_eq_walkTo methods index] at passed
  obtain ⟨depth, before, walked, passed⟩ := ending_bind_eq_ok_iff.mp passed
  obtain ⟨_, _, counted, _⟩ := ending_bind_eq_ok_iff.mp passed
  obtain ⟨inside, rfl⟩ := List.getElem?_eq_some_iff.mp here
  rw [List.drop_eq_getElem_cons inside, BodySteps.lines_cons] at counted
  obtain ⟨next, after, checked, _⟩ := ending_bind_eq_ok_iff.mp counted
  have tracks := Tracks.of_walkTo walked
  obtain ⟨found, read, accepts⟩ := BodySteps.ending_line_eq_ok_iff.mp checked
  cases known.symm.trans read
  exact ⟨depth, before, next, after, tracks, accepts, tracks.succ here checked⟩

theorem exists_of_call {methods : List Method} {callee given : Text} {last : Scopes}
    (passed : ending (Check.method (.ofMethods methods) visit.method) visit.outer = (.ok (), last))
    (member : line ∈ visit.method.body) (known : Statement.ofLine line = some (.call callee given)) :
    ∃ target ∈ methods, target.name = callee ∧ Check.argumentCount given = target.parameters.length := by
  obtain ⟨index, here⟩ := List.getElem?_of_mem member
  obtain ⟨_, _, _, _, _, accepts, _⟩ := exists_accepts passed here known
  cases accepts with
  | call called =>
    obtain ⟨target, found, counted⟩ := Check.exists_of_call called
    obtain ⟨defined, named⟩ := MethodTable.mem_of_get?_ofMethods found
    exact ⟨target, defined, named, counted⟩
  | variableLine about _ => rcases about with about | about <;> cases about

theorem distinct_of_mem {last : Scopes}
    (passed : ending (Check.method methods visit.method) visit.outer = (.ok (), last))
    (member : line ∈ visit.method.body) : ((declaredIn line).map (·.fragment.name)).Nodup := by
  by_cases known : Statement.ofLine line = some .declaration
  · obtain ⟨index, here⟩ := List.getElem?_of_mem member
    obtain ⟨_, _, _, _, _, accepts, _⟩ := exists_accepts passed here known
    cases accepts with
    | variableLine _ changed =>
      have apart := VariableRows.distinct_declared ((Statement.ofLine_trim line).trans known) changed
      rwa [declaredIn_trim] at apart
  · rw [declaredIn_of_ne known]
    exact .nil

private theorem exists_of_mem_elim {α : Type} {item : α} {said : Text → List α}
    (member : item ∈ visit.method.body[index]?.elim [] said) :
    ∃ line, visit.method.body[index]? = some line ∧ item ∈ said line := by
  cases here : visit.method.body[index]? with
  | none =>
    rw [here] at member
    cases member
  | some line =>
    rw [here] at member
    exact ⟨line, rfl, member⟩

private theorem exists_of_declaredAt {declared : Declared} (member : declared ∈ visit.declaredAt index) :
    ∃ line, visit.method.body[index]? = some line ∧ Statement.ofLine line = some .declaration := by
  obtain ⟨line, here, found⟩ := exists_of_mem_elim member
  exact ⟨line, here, ofLine_of_mem_declaredIn found⟩

private theorem SameBlock.refl (index : Nat) : visit.SameBlock index index := by
  refine ⟨rfl, ?_⟩
  intro between first last
  exact Int.le_of_eq (congrArg visit.depthAt (Nat.le_antisymm first last))

private theorem depthAt_succ_of_declaration (here : visit.method.body[index]? = some line)
    (known : Statement.ofLine line = some .declaration) : visit.depthAt (index + 1) = visit.depthAt index := by
  rw [depthAt_succ here, weightOf_of_ofLine known]
  exact Int.add_zero _

private theorem lives_of_sameBlock {first : Nat} {declared : Declared} (same : visit.SameBlock first index)
    (member : declared ∈ visit.declaredAt first) (order : first ≤ index)
    (here : visit.method.body[index]? = some line) (known : Statement.ofLine line = some .declaration) :
    visit.Lives (index + 1) declared.fragment.name (.declaration first declared) := by
  refine lives_declaration_iff.mpr ⟨member, rfl, by omega, ?_⟩
  intro later after upto
  by_cases last : later = index + 1
  · rw [last]
    exact Int.le_of_eq ((depthAt_succ_of_declaration here known).trans same.1).symm
  · exact same.2 later (by omega) (by omega)

section
variable {last : Scopes} (passed : ending (Check.method methods visit.method) visit.outer = (.ok (), last))
include passed

/-- Declarations in one block would be bound in one scope, where a name is bound once. -/
theorem ne_of_sameBlock {first : Nat} {declared other : Declared} (order : first < index)
    (same : visit.SameBlock first index) (member : declared ∈ visit.declaredAt first)
    (again : other ∈ visit.declaredAt index) : declared.fragment.name ≠ other.fragment.name := by
  intro named
  obtain ⟨line, here, known⟩ := exists_of_declaredAt again
  obtain ⟨_, _, _, _, _, _, tracks⟩ := exists_accepts passed here known
  have lives := lives_of_sameBlock same member (Nat.le_of_lt order) here known
  have living := lives_of_sameBlock (.refl index) again (Nat.le_refl index) here known
  rw [named] at lives
  have level : visit.height (.declaration first declared) = visit.height (.declaration index other) := by
    rw [height_declaration, height_declaration, same.1]
  cases tracks.reflects.apart _ _ _ lives living level
  exact Nat.lt_irrefl _ order

theorem ne_of_parameter {declared : Declared} {parameter : Parameter} (top : visit.depthAt index = 1)
    (member : declared ∈ visit.declaredAt index) (named : parameter ∈ visit.method.parameters) :
    declared.fragment.name ≠ parameter.name := by
  intro same
  obtain ⟨line, here, known⟩ := exists_of_declaredAt member
  obtain ⟨_, _, _, _, _, _, tracks⟩ := exists_accepts passed here known
  have lives := lives_of_sameBlock (.refl index) member (Nat.le_refl index) here known
  have living : visit.Lives (index + 1) parameter.name (.parameter parameter) := by
    refine lives_parameter_iff.mpr ⟨named, rfl, ?_⟩
    intro later upto
    by_cases last : later = index + 1
    · rw [last]
      exact Int.le_of_eq ((depthAt_succ_of_declaration here known).trans top).symm
    · have inside := (List.getElem?_eq_some_iff.mp here).1
      exact tracks.positive later (by omega) (by omega)
  rw [same] at lives
  have level : visit.height (.declaration index declared) = visit.height (.parameter parameter) := by
    rw [height_declaration, height_parameter, top]
    rfl
  cases tracks.reflects.apart _ _ _ lives living level

end

theorem Origin.isFinal_eq {name : Text} {referent : Referent} {binding other : Binding}
    (origin : visit.Origin name referent binding) (again : visit.Origin name referent other) :
    other.isFinal = binding.isFinal := by
  cases origin with
  | declaration member named =>
    cases again
    rfl
  | parameter member named =>
    cases again
    rfl
  | outer bound =>
    cases again with
    | outer found =>
      rw [bound] at found
      cases found
      rfl

/-- What is looked up is what the name stands for. -/
theorem Tracks.assignable {depth : Nat} {name : Text} {target : Binding} (tracks : visit.Tracks index depth scopes)
    (found : scopes.lookup name = some target) (changeable : target.isFinal = false) :
    visit.Assignable index name := by
  constructor
  · obtain ⟨height, resolves⟩ := Scopes.lookup_eq_some_iff.mp found
    obtain ⟨referent, highest, _⟩ := tracks.reflects.exists_highest resolves
    exact ⟨referent, tracks.refers_iff_highest.mpr highest⟩
  · intro referent binding refers origin
    obtain ⟨held, resolves, first, origins, _, _, final, _⟩ :=
      tracks.reflects.resolves_of_highest (tracks.refers_iff_highest.mp refers)
    cases found.symm.trans (Scopes.lookup_eq_some_iff.mpr ⟨_, resolves⟩)
    rw [← origin.isFinal_eq origins, ← final]
    exact changeable

theorem assignable_of_assignedAt {last : Scopes} {fragment : Fragment}
    (passed : ending (Check.method methods visit.method) visit.outer = (.ok (), last))
    (member : fragment ∈ visit.assignedAt index) : visit.Assignable index fragment.name := by
  obtain ⟨line, here, found⟩ := exists_of_mem_elim member
  have known := ofLine_of_mem_assignedIn found
  obtain ⟨depth, before, next, after, tracks, accepts, _⟩ := exists_accepts passed here known
  cases accepts with
  | variableLine about changed =>
    rw [VariableRows.of_assignment ((Statement.ofLine_trim line).trans known), assignedIn_trim] at changed
    obtain ⟨-, each⟩ := VariableRows.found_of_assignments (.refl Binding.AtMost.overlooks before) changed
    obtain ⟨target, held, changeable⟩ := each fragment found
    exact tracks.assignable held changeable

/-! A body refers to the same variables from all scopes that bind the same names. -/

section
variable {method : Method} {first outer : Scopes} {name : Text} {referent : Referent}

private theorem lives_iff_of_compares (compares : first.Compares Binding.AtMost outer) :
    (Visit.mk method outer).Lives index name referent ↔ (Visit.mk method first).Lives index name referent := by
  cases referent with
  | declaration place declared =>
    rw [lives_declaration_iff, lives_declaration_iff]
    exact Iff.rfl
  | parameter parameter =>
    rw [lives_parameter_iff, lives_parameter_iff]
    exact Iff.rfl
  | outer height =>
    rw [lives_outer_iff, lives_outer_iff]
    have slots := compares.slots height name
    dsimp only
    generalize first.slot height name = found, outer.slot height name = met at slots
    cases slots <;> simp

private theorem Refers.carry (refers : (Visit.mk method outer).Refers index name referent)
    (lives : ∀ other, (Visit.mk method outer).Lives index name other ↔ (Visit.mk method first).Lives index name other)
    (resolves : ∀ height binding, outer.Resolves name height binding → ∃ other, first.Resolves name height other) :
    (Visit.mk method first).Refers index name referent := by
  cases refers with
  | declaration living deepest =>
    exact .declaration ((lives _).mp living) fun other found known => deepest other found ((lives _).mpr known)
  | parameter undeclared living =>
    exact .parameter (fun place declared known => undeclared place declared ((lives _).mpr known))
      ((lives _).mp living)
  | outer undeclared unnamed resolving =>
    obtain ⟨other, resolved⟩ := resolves _ _ resolving
    exact .outer (fun place declared known => undeclared place declared ((lives _).mpr known))
      (fun parameter known => unnamed parameter ((lives _).mpr known)) resolved

private theorem refers_iff_of_compares (compares : first.Compares Binding.AtMost outer) :
    (Visit.mk method outer).Refers index name referent ↔ (Visit.mk method first).Refers index name referent := by
  constructor
  · intro refers
    refine refers.carry (fun _ => lives_iff_of_compares compares) ?_
    intro height binding resolves
    obtain ⟨other, resolved, _⟩ := compares.resolves_first resolves
    exact ⟨other, resolved⟩
  · intro refers
    refine refers.carry (fun _ => (lives_iff_of_compares compares).symm) ?_
    intro height binding resolves
    obtain ⟨other, resolved, _⟩ := compares.resolves resolves
    exact ⟨other, resolved⟩

private theorem origin_of_compares {binding : Binding} (compares : first.Compares Binding.AtMost outer)
    (origin : (Visit.mk method first).Origin name referent binding) :
    ∃ other, (Visit.mk method outer).Origin name referent other ∧ other.isFinal = binding.isFinal := by
  cases origin with
  | declaration member named => exact ⟨⟨_, _, _, _, none⟩, .declaration member named, rfl⟩
  | parameter member named => exact ⟨_, .parameter member named, rfl⟩
  | @outer height _ bound =>
    have slots := compares.slots height name
    change first.slot height name = some binding at bound
    rw [bound] at slots
    generalize met : outer.slot height name = found at slots
    cases slots with
    | some atMost => exact ⟨_, .outer met, atMost.isFinal⟩

theorem Assignable.of_compares (assignable : (Visit.mk method outer).Assignable index name)
    (compares : first.Compares Binding.AtMost outer) : (Visit.mk method first).Assignable index name := by
  constructor
  · obtain ⟨referent, refers⟩ := assignable.known
    exact ⟨referent, (refers_iff_of_compares compares).mp refers⟩
  · intro referent binding refers origin
    obtain ⟨other, origins, same⟩ := origin_of_compares compares origin
    rw [← same]
    exact assignable.changeable referent other ((refers_iff_of_compares compares).mpr refers) origins

end

/-- A method that is accepted is sound from all scopes that bind the names that its check
found, whatever else was initialized by then. -/
theorem sound_of_method (visit : Visit) {first last : Scopes} {methods : List Method}
    (compares : first.Compares Binding.AtMost visit.outer) (trimmed : ∀ line ∈ visit.method.body, line.trim = line)
    (passed : ending (Check.method (.ofMethods methods) visit.method) visit.outer = (.ok (), last)) :
    (Visit.mk visit.method first).Sound methods where
  parameters := parameters_of_method passed
  returns := returns_of_method passed trimmed
  calls := fun _ member _ _ known => exists_of_call passed member known
  fragments := fun _ member => distinct_of_mem passed member
  blocks := by
    intro start finish order same declared member other again
    exact ne_of_sameBlock passed order same member again
  topLevel := by
    intro index top declared member parameter named
    exact ne_of_parameter passed top member named
  assignments := by
    intro index fragment member
    exact (assignable_of_assignedAt passed member).of_compares compares

end Visit
end Linewise
