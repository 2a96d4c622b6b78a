import Linewise.Proofs.BodySteps
import Linewise.Proofs.OutlineSegments

/-! The body of a method is a tree of blocks written down line by line. Checking the lines
with a counter ends as checking the tree does, where a block is what its scope is open for. -/

namespace Linewise

inductive Tree
  | call (callee given : Text)
  | variableLine (line : Text)
  | ret
  | block (condition : Text) (children : List Tree)
  deriving Repr

namespace Tree

def ofLine? (line : Text) : Option Tree :=
  match Statement.ofLine line with
  | some (.call callee given) => some (.call callee given)
  | some .declaration | some .assignment => some (.variableLine line.trim)
  | some .ret => some .ret
  | some (.methodHead _ _) | some (.blockHead _) | some .blockEnd | none => none

inductive Reads : List Text → List Tree → Prop where
  | nil : Reads [] []
  | leaf {line tree lines trees} (simple : ofLine? line = some tree) (rest : Reads lines trees) :
      Reads (line :: lines) (tree :: trees)
  | block {head condition inner children last lines trees}
      (known : Statement.ofLine head = some (.blockHead condition)) (body : Reads inner children)
      (closed : Statement.ofLine last = some .blockEnd) (rest : Reads lines trees) :
      Reads (head :: (inner ++ last :: lines)) (.block condition children :: trees)

/-- The trees of a body, which is closed by a brace of its own. -/
def ReadsBody (body : List Text) (trees : List Tree) : Prop :=
  ∃ lines last, body = lines ++ [last] ∧ Statement.ofLine last = some .blockEnd ∧ Reads lines trees

mutual

/-- A block is checked in a scope that is open just for it. -/
def check (methods : MethodTable) : Tree → Run Scopes Unit
  | .call callee given => Run.test fun scopes => Check.call methods scopes callee given
  | .variableLine line => Check.variableLine line
  | .ret => pure ()
  | .block condition children => do
    Run.test fun scopes => Check.condition scopes condition
    Run.step fun scopes => .ok scopes.opened
    checkEach methods children
    Run.step Scopes.close

def checkEach (methods : MethodTable) : List Tree → Run Scopes Unit
  | [] => pure ()
  | tree :: trees => do
    check methods tree
    checkEach methods trees

end

def checkMethod (methods : MethodTable) (checked : Method) (trees : List Tree) : Run Scopes Unit := do
  Check.trailingReturn checked
  Run.step fun scopes => .ok scopes.opened
  Check.parameters checked.parameters
  checkEach methods trees
  Run.step Scopes.close

end Tree

namespace BlockTree
open Run Linewise.Tree BodySteps

variable {methods : MethodTable}

private theorem ending_lines_cons {line : Text} {statement : Statement} {depth : Nat} {lines : List Text}
    (known : Statement.ofLine line = some statement) :
    ending (Check.lines methods depth (line :: lines)) =
      ending (Check.statement methods line.trim depth statement >>= fun depth =>
        Check.lines methods depth lines) := by
  rw [lines_cons]
  exact ending_bind_congr (ending_line_of_some known depth) fun _ => rfl

/-- A line that is a tree by itself is checked as that tree, and stays at its depth. -/
theorem statement_of_ofLine? (methods : MethodTable) {line : Text} {tree : Tree} (simple : Tree.ofLine? line = some tree) :
    ∃ statement, Statement.ofLine line = some statement ∧ ∀ depth,
      Check.statement methods line.trim (depth + 1) statement =
        tree.check methods >>= fun _ => pure (depth + 1) := by
  unfold Tree.ofLine? at simple
  split at simple
  all_goals cases simple
  all_goals exact ⟨_, by assumption, fun depth => by rw [check]; rfl⟩

theorem ofLine?_of_isSimple {line : Text} {statement : Statement}
    (known : Statement.ofLine line = some statement) (simple : statement.isSimple = true) :
    ∃ tree, Tree.ofLine? line = some tree := by
  unfold Tree.ofLine?
  rw [known]
  cases statement with
  | declaration | assignment | call _ _ | ret => exact ⟨_, rfl⟩
  | methodHead _ _ | blockHead _ | blockEnd => cases simple

/-- In a block that is open, lines are checked as the trees they are. -/
theorem ending_lines_of_reads {lines : List Text} {trees : List Tree} (reads : Reads lines trees)
    (depth : Nat) :
    ending (Check.lines methods (depth + 1) lines) =
      ending (checkEach methods trees >>= fun _ => pure (depth + 1)) := by
  induction reads generalizing depth with
  | nil => rfl
  | leaf simple rest ih =>
    obtain ⟨statement, known, same⟩ := statement_of_ofLine? methods simple
    rw [ending_lines_cons known, same, checkEach, bind_assoc, bind_assoc]
    simp only [pure_bind]
    apply ending_bind_congr rfl
    intro _
    exact ih depth
  | block known body closed rest inside after =>
    rw [ending_lines_cons known, checkEach, check]
    simp only [Check.statement, bind_assoc, pure_bind]
    apply ending_bind_congr rfl
    intro _
    apply ending_bind_congr rfl
    intro _
    -- the lines inside of the block come back to the depth that its head has led to
    rw [lines_append, ending_bind_of_value (inside (depth + 1))]
    apply ending_bind_congr rfl
    intro _
    rw [ending_lines_cons closed]
    simp only [Check.statement, bind_assoc, pure_bind]
    apply ending_bind_congr rfl
    intro _
    exact after depth

/-- A whole method ends as the trees of its body do. -/
theorem ending_method_of_readsBody {checked : Method} {trees : List Tree}
    (reads : ReadsBody checked.body trees) :
    ending (Check.method methods checked) = ending (checkMethod methods checked trees) := by
  obtain ⟨lines, last, whole, closed, reads⟩ := reads
  have lastly : ending (Check.lines methods 1 [last]) = ending (Run.step Scopes.close >>= fun _ => pure 0) := by
    rw [ending_lines_cons closed]
    simp only [Check.statement, Check.lines, List.foldlM_nil, bind_assoc, pure_bind]
  unfold Check.method checkMethod
  apply ending_bind_congr rfl
  intro _
  apply ending_bind_congr rfl
  intro _
  apply ending_bind_congr rfl
  intro _
  rw [whole, lines_append, bind_assoc, ending_bind_of_value (ending_lines_of_reads reads 0)]
  apply ending_bind_congr rfl
  intro _
  rw [Nat.zero_add, ending_bind_of_value lastly]
  exact congrArg ending (bind_pure (Run.step Scopes.close))

private theorem exists_reads (depth : Nat) (lines : List Text) (closes : ClosesFrom (depth + 1) lines) :
    ∃ before last after trees, lines = before ++ last :: after ∧
      Statement.ofLine last = some .blockEnd ∧ Reads before trees ∧ ClosesFrom depth after := by
  match lines with
  | [] =>
    have ended := ClosesFrom.nil_iff.mp closes
    omega
  | line :: lines =>
    obtain ⟨-, ⟨statement, known, inner⟩, rest⟩ := ClosesFrom.cons_iff.mp closes
    rw [weightOf_of_ofLine known] at rest
    cases statement with
    | methodHead name parameters => cases inner
    | blockEnd =>
      refine ⟨[], line, lines, [], rfl, known, .nil, ?_⟩
      rwa [Statement.weight, Int.add_neg_cancel_right] at rest
    | blockHead condition =>
      -- the first brace that is left over inside closes this block, the next one the outer
      obtain ⟨body, closing, others, children, cut, closed, inside, outside⟩ :=
        exists_reads (depth + 1) lines rest
      obtain ⟨before, last, after, trees, rfl, ended, reads, remains⟩ := exists_reads depth others outside
      refine ⟨line :: (body ++ closing :: before), last, after, .block condition children :: trees, ?_,
        ended, .block known inside closed reads, remains⟩
      simp [cut]
    | declaration | assignment | call _ _ | ret =>
      obtain ⟨tree, simple⟩ := ofLine?_of_isSimple known rfl
      obtain ⟨before, last, after, trees, rfl, ended, reads, remains⟩ :=
        exists_reads depth lines (by simpa [Statement.weight] using rest)
      exact ⟨line :: before, last, after, tree :: trees, rfl, ended, .leaf simple reads, remains⟩
termination_by lines.length
decreasing_by
  all_goals simp_all only [List.length_cons, List.length_append]
  all_goals omega

theorem exists_readsBody {body : List Text} (closes : ClosesFrom 1 body) : ∃ trees, ReadsBody body trees := by
  obtain ⟨before, last, after, trees, rfl, closed, reads, remains⟩ := exists_reads 0 body closes
  cases after with
  | nil => exact ⟨trees, before, last, rfl, closed, reads⟩
  | cons line after =>
    have positive := (ClosesFrom.cons_iff.mp remains).1
    omega

private theorem ofLine?_of_block {line : Text} {statement : Statement}
    (known : Statement.ofLine line = some statement) (compound : statement.isSimple = false) :
    Tree.ofLine? line = none := by
  unfold Tree.ofLine?
  rw [known]
  cases statement with
  | declaration | assignment | call _ _ | ret => cases compound
  | methodHead _ _ | blockHead _ | blockEnd => rfl

private theorem reads_unique {first second : List Text} {last closing : Text} {after rest : List Text}
    {trees others : List Tree} (reads : Reads first trees) (again : Reads second others)
    (closed : Statement.ofLine last = some .blockEnd) (ended : Statement.ofLine closing = some .blockEnd)
    (same : first ++ last :: after = second ++ closing :: rest) :
    trees = others ∧ after = rest := by
  induction reads generalizing second others last closing after rest with
  | nil =>
    cases again with
    | nil => exact ⟨rfl, (List.cons.inj same).2⟩
    | leaf simple _ =>
      obtain ⟨rfl, -⟩ := List.cons.inj same
      rw [ofLine?_of_block closed rfl] at simple
      cases simple
    | block known _ _ _ =>
      obtain ⟨rfl, -⟩ := List.cons.inj same
      rw [closed] at known
      cases known
  | leaf simple _ ih =>
    cases again with
    | nil =>
      obtain ⟨rfl, -⟩ := List.cons.inj same
      rw [ofLine?_of_block ended rfl] at simple
      cases simple
    | leaf other again =>
      obtain ⟨rfl, tails⟩ := List.cons.inj same
      obtain ⟨rfl, rfl⟩ := ih again closed ended tails
      rw [simple] at other
      cases other
      exact ⟨rfl, rfl⟩
    | block known _ _ _ =>
      obtain ⟨rfl, -⟩ := List.cons.inj same
      rw [ofLine?_of_block known rfl] at simple
      cases simple
  | block known _ innerClosed _ inside outside =>
    cases again with
    | nil =>
      obtain ⟨rfl, -⟩ := List.cons.inj same
      rw [ended] at known
      cases known
    | leaf simple _ =>
      obtain ⟨rfl, -⟩ := List.cons.inj same
      rw [ofLine?_of_block known rfl] at simple
      cases simple
    | block other body otherClosed again =>
      simp only [List.cons_append, List.append_assoc] at same
      obtain ⟨rfl, tails⟩ := List.cons.inj same
      obtain ⟨rfl, remains⟩ := inside body innerClosed otherClosed tails
      obtain ⟨rfl, rfl⟩ := outside again closed ended remains
      rw [known] at other
      cases other
      exact ⟨rfl, rfl⟩

theorem readsBody_unique {body : List Text} {trees others : List Tree} (reads : ReadsBody body trees)
    (again : ReadsBody body others) : others = trees := by
  obtain ⟨lines, last, rfl, closed, reads⟩ := reads
  obtain ⟨_, closing, same, ended, again⟩ := again
  exact (reads_unique reads again closed ended same).1.symm

/-- Every method of an outline is one tree of blocks, and its check ends as the check of that
tree does, with the same result and in the same scopes. -/
theorem method_ends_as_tree {lines : List Text} {outline : Outline} {checked : Method}
    (built : Outline.ofLines lines = .ok outline) (member : checked ∈ outline.methods.methods) :
    ∃ trees, ReadsBody checked.body trees ∧ (∀ others, ReadsBody checked.body others → others = trees) ∧
      ∀ methods scopes,
        ending (Check.method methods checked) scopes = ending (checkMethod methods checked trees) scopes := by
  obtain ⟨trees, reads⟩ := exists_readsBody (OutlineSegments.closes_of_mem built member)
  refine ⟨trees, reads, fun others again => readsBody_unique reads again, ?_⟩
  intro methods scopes
  exact congrFun (ending_method_of_readsBody reads) scopes

def nested : Method :=
  ⟨"f".toList, [⟨"a".toList, .int, false⟩],
    ["while (a) \x7b", "if (true) \x7b", "int x = a;", "\x7d", "g(a);", "\x7d", "return;", "\x7d"].map String.toList⟩

theorem nested_ends_as_tree :
    Outline.ofLines ("void f(int a) \x7b".toList :: nested.body) = .ok ⟨[], .ofMethods [nested]⟩ ∧
      nested ∈ (MethodTable.ofMethods [nested]).methods ∧
      ∃ trees, ReadsBody nested.body trees ∧ (∀ others, ReadsBody nested.body others → others = trees) ∧
        ∀ methods scopes,
          ending (Check.method methods nested) scopes = ending (checkMethod methods nested trees) scopes := by
  have built : Outline.ofLines ("void f(int a) \x7b".toList :: nested.body) = .ok ⟨[], .ofMethods [nested]⟩ := by
    decide +kernel
  have member : nested ∈ (MethodTable.ofMethods [nested]).methods := by simp
  exact ⟨built, member, method_ends_as_tree built member⟩

end BlockTree
end Linewise
