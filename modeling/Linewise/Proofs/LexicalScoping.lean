import Linewise.Proofs.BodySteps
import Linewise.Proofs.MethodRegistry
import Linewise.Proofs.ScopeReflection
import Linewise.Proofs.VariableRows

/-! The scopes that a check has reached hold exactly the variables that the lines before it
leave in force, each in the scope of its block. So what is looked up is what the name refers
to, and an assignment is found again in the variable it was made to. -/

namespace Linewise

namespace Visit
open Run

variable {visit : Visit} {after : Scopes}

/-- The check of the method as far as the first lines of its body. -/
def walkTo (visit : Visit) (methods : MethodTable) (count : Nat) : Run Scopes Nat := do
  Check.trailingReturn visit.method
  step fun scopes => .ok scopes.opened
  Check.parameters visit.method.parameters
  Check.lines methods 1 (visit.method.body.take count)

private theorem walkTo_bind (visit : Visit) (methods : MethodTable) (count : Nat) (finish : Nat → Run Scopes Unit) :
    (do
      let depth ← visit.walkTo methods count
      let last ← Check.lines methods depth (visit.method.body.drop count)
      finish last) =
    (do
      Check.trailingReturn visit.method
      step fun scopes => .ok scopes.opened
      Check.parameters visit.method.parameters
      let last ← Check.lines methods 1 visit.method.body
      finish last) := by
  have whole : Check.lines methods 1 visit.method.body =
      Check.lines methods 1 (visit.method.body.take count) >>= fun depth =>
        Check.lines methods depth (visit.method.body.drop count) := by
    rw [← BodySteps.lines_append, List.take_append_drop]
  unfold walkTo
  rw [whole]
  simp only [bind_assoc]

/-- The check of the whole method goes on from there. -/
theorem method_eq_walkTo (visit : Visit) (methods : MethodTable) (count : Nat) :
    Check.method methods visit.method = (do
      let depth ← visit.walkTo methods count
      match ← Check.lines methods depth (visit.method.body.drop count) with
      | 0 => pure ()
      | _ + 1 => raise (.unclosedBlock (some visit.method.name))) :=
  (walkTo_bind visit methods count _).symm

theorem walkTo_succ_of_some {visit : Visit} {methods : MethodTable} {count : Nat} {line : Text}
    (here : visit.method.body[count]? = some line) :
    visit.walkTo methods (count + 1) =
      visit.walkTo methods count >>= fun depth => Check.line methods depth line := by
  have single (depth : Nat) : Check.lines methods depth [line] = Check.line methods depth line := by
    rw [BodySteps.lines_cons]
    exact bind_pure (Check.line methods depth line)
  unfold walkTo
  simp only [bind_assoc, body_take_succ here, BodySteps.lines_append, single]

theorem walkTo_succ_of_none {visit : Visit} {methods : MethodTable} {count : Nat}
    (beyond : visit.method.body[count]? = none) :
    visit.walkTo methods (count + 1) = visit.walkTo methods count := by
  unfold walkTo
  rw [body_take_succ_of_none beyond]

/-- What the check has reached after the first lines of a body, read off the text. -/
structure Tracks (visit : Visit) (count depth : Nat) (scopes : Scopes) : Prop where
  counted : (depth : Int) = visit.depthAt count
  level : scopes.depth = visit.outer.depth + depth
  positive : ∀ index < count, index < visit.method.body.length → 1 ≤ visit.depthAt index
  reflects : visit.Reflects (visit.Lives count) (visit.Assigned count) scopes

namespace Tracks

variable {count depth next : Nat} {before : Scopes} {methods : MethodTable} {line : Text}

private theorem lt_height_of_declaration (tracks : visit.Tracks count depth before) {name : Text} {index : Nat}
    {declared : Declared} (lives : visit.Lives count name (.declaration index declared)) :
    visit.outer.depth < visit.height (.declaration index declared) := by
  obtain ⟨member, _, earlier, _⟩ := lives_declaration_iff.mp lives
  have inside : index < visit.method.body.length := by
    apply Nat.lt_of_not_le
    intro beyond
    rw [declaredAt, List.getElem?_eq_none beyond] at member
    cases member
  have positive := tracks.positive index earlier inside
  rw [height_declaration]
  omega

private theorem height_le_of_outer {name : Text} {height : Nat} (lives : visit.Lives count name (.outer height)) :
    height ≤ visit.outer.depth := by
  obtain ⟨binding, bound⟩ := lives_outer_iff.mp lives
  exact Scopes.height_le_of_slot bound

private theorem highest_of_refers (tracks : visit.Tracks count depth before) {name : Text} {referent : Referent}
    (refers : visit.Refers count name referent) : visit.Highest (visit.Lives count) name referent := by
  cases refers with
  | @declaration index declared lives deepest =>
    refine ⟨lives, ?_⟩
    have above := tracks.lt_height_of_declaration lives
    intro other living
    cases other with
    | declaration later found =>
      have below := deepest later found living
      rw [height_declaration, height_declaration]
      omega
    | parameter parameter =>
      rw [height_parameter]
      omega
    | outer height =>
      have low := height_le_of_outer living
      rw [height_outer]
      omega
  | parameter undeclared lives =>
    refine ⟨lives, ?_⟩
    intro other living
    cases other with
    | declaration index declared => exact absurd living (undeclared index declared)
    | parameter other => exact Nat.le_refl _
    | outer height =>
      have low := height_le_of_outer living
      rw [height_outer, height_parameter]
      omega
  | outer undeclared unnamed resolves =>
    refine ⟨lives_outer_iff.mpr ⟨_, resolves.bound⟩, ?_⟩
    intro other living
    cases other with
    | declaration index declared => exact absurd living (undeclared index declared)
    | parameter parameter => exact absurd living (unnamed parameter)
    | outer above =>
      obtain ⟨binding, bound⟩ := lives_outer_iff.mp living
      apply Nat.le_of_not_lt
      intro higher
      rw [resolves.highest above higher] at bound
      cases bound

private theorem refers_of_highest (tracks : visit.Tracks count depth before) {name : Text} {referent : Referent}
    (highest : visit.Highest (visit.Lives count) name referent) : visit.Refers count name referent := by
  obtain ⟨lives, top⟩ := highest
  cases referent with
  | declaration index declared =>
    refine .declaration lives ?_
    intro other found living
    have below := top _ living
    have above := tracks.lt_height_of_declaration lives
    rw [height_declaration] at above
    rw [height_declaration, height_declaration] at below
    omega
  | parameter parameter =>
    refine .parameter ?_ lives
    intro index declared living
    -- both would be bound in the scope of the method, where a name is bound once
    have below := top _ living
    have above := tracks.lt_height_of_declaration living
    have same : visit.height (.declaration index declared) = visit.height (.parameter parameter) := by
      rw [height_parameter] at below ⊢
      omega
    cases tracks.reflects.apart name _ _ living lives same
  | outer height =>
    have low := height_le_of_outer lives
    obtain ⟨binding, bound⟩ := lives_outer_iff.mp lives
    have resolves : visit.outer.Resolves name height binding := by
      refine ⟨bound, ?_⟩
      intro above higher
      cases there : visit.outer.slot above name with
      | none => rfl
      | some found =>
        have below := top (.outer above) (lives_outer_iff.mpr ⟨found, there⟩)
        rw [height_outer, height_outer] at below
        omega
    refine .outer ?_ ?_ resolves
    · intro index declared living
      have below := top _ living
      have above := tracks.lt_height_of_declaration living
      rw [height_outer] at below
      omega
    · intro parameter living
      have below := top _ living
      rw [height_outer, height_parameter] at below
      omega

/-- What a name refers to is the highest variable of that name. -/
theorem refers_iff_highest (tracks : visit.Tracks count depth before) {name : Text} {referent : Referent} :
    visit.Refers count name referent ↔ visit.Highest (visit.Lives count) name referent :=
  ⟨tracks.highest_of_refers, tracks.refers_of_highest⟩

private theorem reflects_declaration (tracks : visit.Tracks count depth before)
    (here : visit.method.body[count]? = some line) (known : Statement.ofLine line = some .declaration)
    (changed : ending (Check.variableLine line.trim) before = (.ok (), after)) :
    after.depth = before.depth ∧ visit.Reflects (visit.LivesWith count) (visit.AssignedWith count) after := by
  have declaring : Statement.ofLine line.trim = some .declaration := (Statement.ofLine_trim line).trans known
  obtain ⟨isFinal, ty, fragments, declared, reads⟩ := VariableRows.of_declaration declaring
  have declares : visit.declaredAt count = fragments.map (Declared.mk isFinal ty) := by
    rw [declaredAt_of_some here, ← declaredIn_trim, declared]
  rw [reads] at changed
  let label (fragment : Fragment) : Referent := .declaration count ⟨isFinal, ty, fragment⟩
  have binds : ∀ fragment ∈ fragments, ∀ scopes last,
      Check.declare isFinal ty fragment scopes = .ok last → ∃ binding,
        scopes.current.contains fragment.name = false ∧ binding.name = fragment.name ∧
          visit.Origin fragment.name (label fragment) binding ∧
          last = { scopes with current := binding :: scopes.current } := by
    intro fragment member scopes last made
    obtain ⟨stored, fresh, rfl⟩ := VariableEffects.exists_of_declare made
    refine ⟨_, fresh, rfl, .declaration ?_ rfl, rfl⟩
    rw [declares]
    exact List.mem_map_of_mem member
  have levels : ∀ fragment ∈ fragments, visit.height (label fragment) = before.depth := by
    intro fragment _
    rw [height_declaration, tracks.level, ← tracks.counted]
    rfl
  obtain ⟨level, reflects⟩ := tracks.reflects.row Fragment.name label binds levels
    (fun _ _ => not_assigned_declaration) changed
  refine ⟨level, reflects.congr ?_ fun _ _ => assignedWith_iff_of_ne here (by simp [known])⟩
  intro name referent
  unfold LivesWith
  rw [declares]
  constructor
  · intro lives
    rcases lives with lives | ⟨declared, member, same, named⟩
    · exact Or.inl lives
    · obtain ⟨fragment, found, rfl⟩ := List.mem_map.mp member
      exact Or.inr ⟨fragment, found, named.symm, same⟩
  · intro lives
    rcases lives with lives | ⟨fragment, member, named, same⟩
    · exact Or.inl lives
    · exact Or.inr ⟨_, List.mem_map_of_mem member, same, named.symm⟩

private theorem reflects_assignment (tracks : visit.Tracks count depth before)
    (here : visit.method.body[count]? = some line) (known : Statement.ofLine line = some .assignment)
    (changed : ending (Check.variableLine line.trim) before = (.ok (), after)) :
    after.depth = before.depth ∧ visit.Reflects (visit.LivesWith count) (visit.AssignedWith count) after := by
  have assigning : Statement.ofLine line.trim = some .assignment := (Statement.ofLine_trim line).trans known
  rw [VariableRows.of_assignment assigning, assignedIn_trim] at changed
  obtain ⟨level, reflects⟩ := tracks.reflects.assignments changed
  refine ⟨level, reflects.congr (fun _ _ => livesWith_iff_of_ne here (by simp [known])) ?_⟩
  intro name referent
  unfold AssignedWith
  rw [assignedAt_of_some here, tracks.refers_iff_highest]

private theorem reflects_of_accepts {statement : Statement} (tracks : visit.Tracks count depth before)
    (here : visit.method.body[count]? = some line) (known : Statement.ofLine line = some statement)
    (accepts : BodySteps.Accepts methods line statement depth before next after) :
    after.depth = visit.outer.depth + next ∧ visit.Reflects
      (fun name referent => visit.LivesWith count name referent ∧ visit.height referent ≤ after.depth)
      (visit.AssignedWith count) after := by
  have level := tracks.level
  have quiet (unlike : statement ≠ .declaration) (other : statement ≠ .assignment) :
      visit.Reflects (visit.LivesWith count) (visit.AssignedWith count) before := by
    refine tracks.reflects.congr ?_ ?_
    · exact fun _ _ => livesWith_iff_of_ne here (by simpa [known] using unlike)
    · exact fun _ _ => assignedWith_iff_of_ne here (by simpa [known] using other)
  cases accepts with
  | blockEnd closed =>
    have lowered := Scopes.depth_of_close closed
    exact ⟨by omega, (quiet (by simp) (by simp)).close closed⟩
  | blockHead holds =>
    have raised : before.opened.depth = before.depth + 1 := rfl
    exact ⟨by omega, (quiet (by simp) (by simp)).opened.bounded⟩
  | call called => exact ⟨level, (quiet (by simp) (by simp)).bounded⟩
  | variableLine about changed =>
    rcases about with rfl | rfl
    · obtain ⟨same, reflects⟩ := reflects_declaration tracks here known changed
      exact ⟨same.trans level, reflects.bounded⟩
    · obtain ⟨same, reflects⟩ := reflects_assignment tracks here known changed
      exact ⟨same.trans level, reflects.bounded⟩
  | ret => exact ⟨level, (quiet (by simp) (by simp)).bounded⟩

/-- One more line that is checked is one more line that is read. -/
theorem succ (tracks : visit.Tracks count depth before) (here : visit.method.body[count]? = some line)
    (passed : ending (Check.line methods depth line) before = (.ok next, after)) :
    visit.Tracks (count + 1) next after := by
  obtain ⟨statement, known, accepts⟩ := BodySteps.ending_line_eq_ok_iff.mp passed
  obtain ⟨above, _, moved⟩ := accepts.counts
  have counted := tracks.counted
  have reached : (next : Int) = visit.depthAt (count + 1) := by
    rw [depthAt_succ here, weightOf_of_ofLine known, ← counted]
    exact moved
  obtain ⟨level, reflects⟩ := reflects_of_accepts tracks here known accepts
  refine ⟨reached, level, ?_, reflects.congr ?_ fun _ _ => assigned_succ_iff⟩
  · intro index earlier inside
    by_cases last : index = count
    · rw [last, ← counted]
      omega
    · exact tracks.positive index (by omega) inside
  · intro name referent
    rw [lives_succ_iff reached, level]

/-- Behind the last line there is nothing more to read. -/
theorem past (tracks : visit.Tracks count depth before) (beyond : visit.method.body[count]? = none) :
    visit.Tracks (count + 1) depth before := by
  have reached : (depth : Int) = visit.depthAt (count + 1) := by
    rw [depthAt, body_take_succ_of_none beyond]
    exact tracks.counted
  refine ⟨reached, tracks.level, ?_, tracks.reflects.bounded.congr ?_ ?_⟩
  · intro index earlier inside
    have ended := List.getElem?_eq_none_iff.mp beyond
    exact tracks.positive index (by omega) inside
  · intro name referent
    rw [lives_succ_iff reached, tracks.level]
    simp [LivesWith, declaredAt, beyond]
  · intro name referent
    rw [assigned_succ_iff]
    simp [AssignedWith, assignedAt, beyond]

private theorem entered
    (passed : ending (Check.parameters visit.method.parameters) visit.outer.opened = (.ok (), after)) :
    visit.Tracks 0 1 after := by
  have binds : ∀ parameter ∈ visit.method.parameters, ∀ scopes last,
      Scopes.declare (.ofParameter parameter) scopes = .ok last → ∃ binding,
        scopes.current.contains parameter.name = false ∧ binding.name = parameter.name ∧
          visit.Origin parameter.name (.parameter parameter) binding ∧
          last = { scopes with current := binding :: scopes.current } := by
    intro parameter member scopes last made
    obtain ⟨fresh, rfl⟩ := Scopes.declare_eq_ok_iff.mp made
    exact ⟨.ofParameter parameter, fresh, rfl, .parameter member rfl, rfl⟩
  obtain ⟨level, reflects⟩ := Reflects.outer.opened.row Parameter.name Referent.parameter binds
    (fun _ _ => rfl) (fun _ _ => id) passed
  refine ⟨rfl, level, fun index earlier => absurd earlier (Nat.not_lt_zero index), reflects.congr ?_ ?_⟩
  · intro name referent
    exact lives_zero_iff
  · intro name referent
    exact iff_false_intro not_assigned_zero

private theorem ending_trailingReturn {checked : Method}
    (passed : ending (Check.trailingReturn checked) before = (.ok (), after)) : after = before := by
  unfold Check.trailingReturn at passed
  split at passed
  · cases passed
    rfl
  · split at passed <;> cases passed
    rfl

/-- After the first lines are checked, the scopes are as the text says. -/
theorem of_walkTo (walked : ending (visit.walkTo methods count) visit.outer = (.ok depth, after)) :
    visit.Tracks count depth after := by
  induction count generalizing depth after with
  | zero =>
    obtain ⟨_, returned, first, goes⟩ := ending_bind_eq_ok_iff.mp walked
    obtain ⟨_, opened, second, names⟩ := ending_bind_eq_ok_iff.mp goes
    obtain ⟨_, named, third, reads⟩ := ending_bind_eq_ok_iff.mp names
    cases ending_trailingReturn first
    cases second
    cases reads
    exact entered third
  | succ count ih =>
    cases here : visit.method.body[count]? with
    | none =>
      rw [walkTo_succ_of_none here] at walked
      exact (ih walked).past here
    | some line =>
      rw [walkTo_succ_of_some here] at walked
      obtain ⟨middle, scopes, first, last⟩ := ending_bind_eq_ok_iff.mp walked
      exact (ih first).succ here last

end Tracks

/-- Wherever the check of a method has come to, the text of the body tells what a name is
bound to. It is bound in the scope of the variable that it refers to, with the type and the
finality of that variable, and is initialized if the variable was so from the beginning or has
been assigned to on the way. A name of a live variable refers to one, and a name that refers
to nothing is not found. -/
theorem lookup_of_text {methods : MethodTable} {count depth : Nat}
    (walked : ending (visit.walkTo methods count) visit.outer = (.ok depth, after)) (name : Text) :
    (∀ referent, visit.Refers count name referent → ∃ binding, after.lookup name = some binding ∧
      after.Resolves name (visit.height referent) binding ∧
      visit.Describes (visit.Assigned count) name referent binding) ∧
    ((∃ referent, visit.Lives count name referent) → ∃ referent, visit.Refers count name referent) ∧
    ((∀ referent, ¬ visit.Refers count name referent) → after.lookup name = none) ∧
    ∀ referent other, visit.Refers count name referent → visit.Refers count name other → other = referent := by
  have tracks := Tracks.of_walkTo walked
  refine ⟨?_, ?_, ?_, ?_⟩
  · intro referent refers
    obtain ⟨binding, resolves, describes⟩ :=
      tracks.reflects.resolves_of_highest (tracks.refers_iff_highest.mp refers)
    exact ⟨binding, Scopes.lookup_eq_some_iff.mpr ⟨_, resolves⟩, resolves, describes⟩
  · intro ⟨referent, lives⟩
    obtain ⟨binding, bound, _⟩ := tracks.reflects.held name referent lives
    obtain ⟨height, found, resolves⟩ := Scopes.exists_resolves_of_slot bound
    obtain ⟨top, highest, _⟩ := tracks.reflects.exists_highest resolves
    exact ⟨top, tracks.refers_iff_highest.mpr highest⟩
  · intro unknown
    cases found : after.lookup name with
    | none => rfl
    | some binding =>
      obtain ⟨height, resolves⟩ := Scopes.lookup_eq_some_iff.mp found
      obtain ⟨referent, highest, _⟩ := tracks.reflects.exists_highest resolves
      exact absurd (tracks.refers_iff_highest.mpr highest) (unknown referent)
  · intro referent other refers again
    have first := tracks.refers_iff_highest.mp refers
    have second := tracks.refers_iff_highest.mp again
    have level := Nat.le_antisymm (first.2 other second.1) (second.2 referent first.1)
    exact tracks.reflects.apart name other referent second.1 first.1 level

/-- A method that hides a variable of its own in a block, and assigns behind the block. -/
def shadowing : Visit where
  method := ⟨"f".toList, [⟨"a".toList, .int, false⟩],
    ["int x;", "while (true) \x7b", "String x = y;", "y = x;", "\x7d", "x = a;", "return;", "\x7d"].map
      String.toList⟩
  outer := ⟨[⟨"y".toList, .string, false, true, none⟩], []⟩

def shadowed : Scopes :=
  ⟨[⟨"x".toList, .int, false, true, none⟩, ⟨"a".toList, .int, false, true, none⟩],
    [[⟨"y".toList, .string, false, true, none⟩]]⟩

theorem shadowing_lookup :
    ending (shadowing.walkTo (.ofMethods []) 6) shadowing.outer = (.ok 1, shadowed) ∧
      ∃ referent, shadowing.Refers 6 "x".toList referent ∧ shadowing.Describes (shadowing.Assigned 6) "x".toList
        referent ⟨"x".toList, .int, false, true, none⟩ := by
  have walked : ending (shadowing.walkTo (.ofMethods []) 6) shadowing.outer = (.ok 1, shadowed) := by
    decide +kernel
  have found : shadowed.lookup "x".toList = some ⟨"x".toList, .int, false, true, none⟩ := by
    decide +kernel
  obtain ⟨refer, _, unknown, _⟩ := lookup_of_text walked "x".toList
  refine ⟨walked, Classical.byContradiction fun none => ?_⟩
  have unfound : shadowed.lookup "x".toList = .none := by
    apply unknown
    intro referent refers
    obtain ⟨binding, bound, _, describes⟩ := refer referent refers
    rw [found] at bound
    cases bound
    exact none ⟨referent, refers, describes⟩
  rw [found] at unfound
  cases unfound

def returning : Visit where
  method := ⟨"f".toList, [⟨"a".toList, .int, false⟩], ["return;".toList, "\x7d".toList]⟩
  outer := {}

/-- The parameters are gone where the last line has closed the body, so that the name of a
parameter is not always found there. -/
theorem parameter_not_found :
    ¬ ∀ (visit : Visit) (lines : List Text) (outline : Outline) (methods : MethodTable) (count depth : Nat)
      (after : Scopes) (parameter : Parameter), Outline.ofLines lines = .ok outline →
      visit.method ∈ outline.methods.methods → count ≤ visit.method.body.length →
      ending (visit.walkTo methods count) visit.outer = (.ok depth, after) →
      (∀ index declared, ¬ visit.Lives count parameter.name (.declaration index declared)) →
      parameter ∈ visit.method.parameters →
      ∃ binding, after.lookup parameter.name = some binding ∧ binding.ty = parameter.ty := by
  intro claimed
  have built : Outline.ofLines ["void f(int a) \x7b".toList, "return;".toList, "\x7d".toList] =
      .ok ⟨[], .ofMethods [returning.method]⟩ := by
    decide +kernel
  have walked : ending (returning.walkTo (.ofMethods []) 2) returning.outer = (.ok 0, {}) := by
    decide +kernel
  have first : returning.declaredAt 0 = [] := by decide +kernel
  have second : returning.declaredAt 1 = [] := by decide +kernel
  have undeclared : ∀ index declared, ¬ returning.Lives 2 "a".toList (.declaration index declared) := by
    intro index declared lives
    have member := (lives_declaration_iff.mp lives).1
    rcases index with _ | _ | index
    · rw [first] at member
      cases member
    · rw [second] at member
      cases member
    · cases member
  obtain ⟨_, found, _⟩ := claimed returning _ _ _ 2 0 {} ⟨"a".toList, .int, false⟩ built (by simp) (by simp [returning])
    walked undeclared (by simp [returning])
  cases found

end Visit
end Linewise
