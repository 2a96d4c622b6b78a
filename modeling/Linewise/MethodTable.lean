import Linewise.Method

/-! The methods of a program in the order of the source. A name leads to a position in that
order, so that looking a method up does not depend on what its neighbours hold. -/

namespace Linewise

structure MethodTable where
  methods : List Method := []
  positions : List (Text × Nat) := []
  deriving DecidableEq, Repr

namespace MethodTable

def position? (table : MethodTable) (name : Text) : Option Nat :=
  table.positions.lookup name

def contains (table : MethodTable) (name : Text) : Bool :=
  (table.position? name).isSome

def get? (table : MethodTable) (name : Text) : Option Method :=
  match table.position? name with
  | none => none
  | some position => table.methods[position]?

def size (table : MethodTable) : Nat :=
  table.methods.length

/-- A name is taken once. The first method to have it keeps it. -/
def register (table : MethodTable) (method : Method) : Except Fault MethodTable :=
  if table.contains method.name then .error (.duplicateMethod method.name)
  else .ok ⟨table.methods ++ [method], (method.name, table.size) :: table.positions⟩

theorem register_eq_ok_iff {table after : MethodTable} {method : Method} :
    table.register method = .ok after ↔
      table.contains method.name = false ∧
        after = ⟨table.methods ++ [method], (method.name, table.size) :: table.positions⟩ := by
  unfold register
  split
  · next h => simp [h]
  · next h => simp [h, eq_comm]

theorem position?_cons (name : Text) (position : Nat) (methods : List Method)
    (positions : List (Text × Nat)) (wanted : Text) :
    position? ⟨methods, (name, position) :: positions⟩ wanted =
      if wanted = name then some position else position? ⟨methods, positions⟩ wanted := by
  simp only [position?, List.lookup_cons]
  by_cases h : wanted = name
  · simp [h]
  · simp [h, beq_false_of_ne h]

end MethodTable
end Linewise
