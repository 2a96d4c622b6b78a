import Linewise.Keyword
import Linewise.Text.Word
import Linewise.Ty

/-! Names of variables and of methods. -/

namespace Linewise

/-- Neither a variable nor a method has one of these names. -/
def reserved : List Text :=
  [Keyword.void, Keyword.final, Keyword.branch, Keyword.loop, Keyword.ret, Keyword.truth, Keyword.falsity]
    ++ Ty.all.map Ty.keyword

def isReserved (word : Text) : Bool :=
  reserved.contains word

/-- A letter, or an underscore before a letter, and then word characters. -/
def hasNameShape : Text → Bool
  | [] => false
  | [c] => c.isAlpha
  | c :: d :: rest => (c.isAlpha && Text.isWordChar d || c == '_' && d.isAlpha) && rest.all Text.isWordChar

def isIdentifier (name : Text) : Bool :=
  hasNameShape name && !isReserved name

/-- A method's name starts with a letter, which a variable's need not. -/
def isMethodName (name : Text) : Bool :=
  (name.head?.any Char.isAlpha) && isIdentifier name

theorem isIdentifier_of_isMethodName {name : Text} (h : isMethodName name = true) :
    isIdentifier name = true := by
  simp only [isMethodName, Bool.and_eq_true] at h
  exact h.2

end Linewise
