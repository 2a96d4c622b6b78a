import Linewise.Check.Body

/-! All global variables are declared before any body is checked, and all methods are known
by then, so a body may use what the source says further down. -/

namespace Linewise

/-- What an accepted program leaves: the scopes after the last method, and how many methods
were checked. -/
structure Verdict where
  scopes : Scopes
  methods : Nat
  deriving DecidableEq, Repr

namespace Check

def globalLine (line : Text) : Run Scopes Unit := do
  match ← Run.read line with
  | .declaration | .assignment => variableLine line
  | .methodHead _ _ | .call _ _ | .blockHead _ | .blockEnd | .ret =>
    Run.raise (.statementOutsideMethod line)

def globals (lines : List Text) : Run Scopes Unit := do
  lines.forM globalLine
  let scopes ← Run.current
  Run.tell (.declared scopes.global.length)

def eachMethod (table : MethodTable) (methods : List Method) : Run Scopes Unit :=
  methods.forM fun checked => do
    Run.tell (.validating checked.name)
    method table checked

def outline (cut : Outline) : Run Scopes Verdict := do
  globals cut.globals
  eachMethod cut.methods cut.methods.methods
  let scopes ← Run.current
  pure ⟨scopes, cut.methods.size⟩

def program (lines : List Text) : Run Scopes Verdict := do
  let cut ← Run.within {} (Outline.build lines)
  outline cut

end Check
end Linewise
