import Linewise.Statement

/-! A line is read as each kind of statement by a reader of its own. The kind that a line is of
is that of the first reader that takes it, and what this reader asks of the line is true of it. -/

namespace Linewise

inductive Kind
  | methodHead
  | declaration
  | assignment
  | call
  | blockHead
  | blockEnd
  | ret
  deriving DecidableEq, Repr

namespace Kind

/-- The kinds as a line is tried for them. -/
def all : List Kind :=
  [methodHead, declaration, assignment, call, blockHead, blockEnd, ret]

def of : Statement → Kind
  | .methodHead _ _ => methodHead
  | .declaration => declaration
  | .assignment => assignment
  | .call _ _ => call
  | .blockHead _ => blockHead
  | .blockEnd => blockEnd
  | .ret => ret

def read? (line : Text) : Kind → Option Statement
  | methodHead => (Statement.methodHead? line).map fun (name, parameters) => .methodHead name parameters
  | declaration => if Statement.isDeclaration line then some .declaration else none
  | assignment => if Statement.isAssignment line then some .assignment else none
  | call => (Statement.call? line).map fun (callee, arguments) => .call callee arguments
  | blockHead => (Statement.blockHead? line).map .blockHead
  | blockEnd => if line = ['}'] then some .blockEnd else none
  | ret => if line = Keyword.ret ++ [';'] then some .ret else none

theorem mem_all (kind : Kind) : kind ∈ all := by
  cases kind <;> decide

end Kind

namespace Statement

variable {line : Text} {kind : Kind} {statement : Statement}

/-- What a trimmed line has to be like to be a statement, whatever else it is like. -/
def Fits (line : Text) : Statement → Prop
  | methodHead name parameters => methodHead? line = some (name, parameters)
  | declaration => isDeclaration line = true
  | assignment => isAssignment line = true
  | call callee arguments => call? line = some (callee, arguments)
  | blockHead condition => blockHead? line = some condition
  | blockEnd => line = ['}']
  | ret => line = Keyword.ret ++ [';']

theorem ofTrimmed_eq (line : Text) : ofTrimmed line = Kind.all.findSome? (Kind.read? line) := by
  simp only [ofTrimmed, Kind.all, Kind.read?, List.findSome?_cons, List.findSome?_nil]
  cases methodHead? line with
  | some head => rfl
  | none =>
    dsimp only [Option.map_none]
    split
    · rfl
    · split
      · rfl
      · cases call? line with
        | some called => rfl
        | none =>
          dsimp only [Option.map_none]
          cases blockHead? line with
          | some condition => rfl
          | none =>
            dsimp only [Option.map_none]
            split
            · rfl
            · split <;> rfl

theorem read?_eq_some_iff : kind.read? line = some statement ↔ kind = .of statement ∧ Fits line statement := by
  cases kind <;> cases statement <;> simp [Kind.read?, Kind.of, Fits]

theorem fits_of_findSome? {order : List Kind} (found : order.findSome? (Kind.read? line) = some statement) :
    Fits line statement := by
  obtain ⟨kind, -, read⟩ := List.exists_of_findSome?_eq_some found
  exact (read?_eq_some_iff.mp read).2

theorem fits_of_ofLine (known : ofLine line = some statement) : Fits line.trim statement := by
  rw [ofLine, ofTrimmed_eq] at known
  exact fits_of_findSome? known

end Statement
end Linewise
