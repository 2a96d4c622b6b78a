import Linewise.Method

/-! Scopes hold the variables that can be seen. The global scope is always there, the scopes
of blocks and methods lie above it, and the innermost scope that knows a name decides. -/

namespace Linewise

/-- The value is the text that was last written to the variable. No check ever looks at it. -/
structure Binding where
  name : Text
  ty : Ty
  isFinal : Bool
  isInitialized : Bool
  value : Option Text
  deriving DecidableEq, Repr

namespace Binding

def assigned (binding : Binding) (value : Option Text) : Binding :=
  { binding with isInitialized := true, value }

/-- A caller gives every parameter a value, which is not known here. -/
def ofParameter (parameter : Parameter) : Binding :=
  ⟨parameter.name, parameter.ty, parameter.isFinal, true, none⟩

end Binding

/-- The bindings of one block, the latest first. -/
abbrev Scope := List Binding

namespace Scope

def get? (scope : Scope) (name : Text) : Option Binding :=
  scope.find? fun binding => binding.name == name

def contains (scope : Scope) (name : Text) : Bool :=
  (get? scope name).isSome

/-- Only the binding that `get?` finds is written to. -/
def assign (name : Text) (value : Option Text) : Scope → Scope
  | [] => []
  | binding :: rest =>
    if binding.name == name then binding.assigned value :: rest else binding :: assign name value rest

theorem name_of_get? {scope : Scope} {name : Text} {binding : Binding}
    (h : scope.get? name = some binding) : binding.name = name := by
  simpa using List.find?_some h

theorem get?_cons (binding : Binding) (scope : Scope) (name : Text) :
    get? (binding :: scope) name = if binding.name = name then some binding else scope.get? name := by
  by_cases h : binding.name = name <;> simp [get?, h]

end Scope

/-- A stack that is never empty: what lies under the current scope may run out, the current
scope cannot. -/
structure Scopes where
  current : Scope := []
  enclosing : List Scope := []
  deriving DecidableEq, Repr

namespace Scopes

/-- From the innermost scope to the global one. -/
def frames (scopes : Scopes) : List Scope :=
  scopes.current :: scopes.enclosing

def global (scopes : Scopes) : Scope :=
  scopes.enclosing.getLastD scopes.current

/-- How many scopes lie above the global one. -/
def depth (scopes : Scopes) : Nat :=
  scopes.enclosing.length

def opened (scopes : Scopes) : Scopes :=
  ⟨[], scopes.frames⟩

def close (scopes : Scopes) : Except Fault Scopes :=
  match scopes.enclosing with
  | [] => .error .globalScopeClosed
  | outer :: enclosing => .ok ⟨outer, enclosing⟩

def declare (binding : Binding) (scopes : Scopes) : Except Fault Scopes :=
  if scopes.current.contains binding.name then .error (.redeclaration binding.name)
  else .ok { scopes with current := binding :: scopes.current }

def lookup (scopes : Scopes) (name : Text) : Option Binding :=
  scopes.frames.findSome? fun scope => scope.get? name

def assignIn (name : Text) (value : Option Text) : List Scope → List Scope
  | [] => []
  | scope :: outer =>
    if scope.contains name then scope.assign name value :: outer
    else scope :: assignIn name value outer

/-- Writes to the variable that the name stands for, if it stands for any. -/
def assign (name : Text) (value : Option Text) (scopes : Scopes) : Scopes :=
  if scopes.current.contains name then { scopes with current := scopes.current.assign name value }
  else { scopes with enclosing := assignIn name value scopes.enclosing }

@[simp] theorem frames_opened (scopes : Scopes) : scopes.opened.frames = [] :: scopes.frames :=
  rfl

theorem close_eq_ok_iff {scopes after : Scopes} :
    scopes.close = .ok after ↔ ∃ scope, scopes.frames = scope :: after.frames := by
  rcases scopes with ⟨current, _ | ⟨outer, enclosing⟩⟩
  · simp [close, frames]
  · rcases after with ⟨last, others⟩
    simp [close, frames]

theorem declare_eq_ok_iff {binding : Binding} {scopes after : Scopes} :
    scopes.declare binding = .ok after ↔
      scopes.current.contains binding.name = false ∧
        after = { scopes with current := binding :: scopes.current } := by
  unfold declare
  split
  · next h => simp [h]
  · next h => simp [h, eq_comm]

theorem name_of_lookup {scopes : Scopes} {name : Text} {binding : Binding}
    (h : scopes.lookup name = some binding) : binding.name = name := by
  obtain ⟨scope, -, found⟩ := List.exists_of_findSome?_eq_some h
  exact Scope.name_of_get? found

theorem frames_assign (name : Text) (value : Option Text) (scopes : Scopes) :
    (scopes.assign name value).frames = assignIn name value scopes.frames := by
  unfold assign frames
  rw [assignIn]
  split <;> rfl

end Scopes
end Linewise
