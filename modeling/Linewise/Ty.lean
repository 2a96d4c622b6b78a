import Linewise.Text.Blank

/-! The five types of a variable and where a value of one may stand for another. -/

namespace Linewise

inductive Ty
  | int
  | double
  | boolean
  | char
  | string
  deriving DecidableEq, Repr

namespace Ty

def all : List Ty :=
  [int, double, boolean, char, string]

def keyword : Ty → Text
  | int => ['i', 'n', 't']
  | double => ['d', 'o', 'u', 'b', 'l', 'e']
  | boolean => ['b', 'o', 'o', 'l', 'e', 'a', 'n']
  | char => ['c', 'h', 'a', 'r']
  | string => ['S', 't', 'r', 'i', 'n', 'g']

def ofKeyword? (word : Text) : Option Ty :=
  all.find? fun ty => ty.keyword == word

def isNumeric : Ty → Bool
  | int | double => true
  | boolean | char | string => false

/-- A variable stands for one of its own type, and the numeric types stand for each other.
Literals have no such freedom. -/
def standsFor (source target : Ty) : Bool :=
  source == target || source.isNumeric && target.isNumeric

/-- The types of a variable that is a condition by itself. -/
def isCondition (ty : Ty) : Bool :=
  ty == boolean || ty.isNumeric

theorem ofKeyword?_eq_some_iff {word : Text} {ty : Ty} : ofKeyword? word = some ty ↔ word = ty.keyword := by
  constructor
  · intro h
    unfold ofKeyword? at h
    have spelled := List.find?_some h
    simp only [beq_iff_eq] at spelled
    exact spelled.symm
  · rintro rfl
    cases ty <;> decide

end Ty
end Linewise
