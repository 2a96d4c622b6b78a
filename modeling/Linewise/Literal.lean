import Linewise.Keyword
import Linewise.Text.Quoted
import Linewise.Ty

/-! Values written out. Each type has a form of its own, and a literal of one type is never
taken for another, even where a variable of the one may stand for the other. -/

namespace Linewise.Literal

/-- The text after one sign, if it has one. -/
def unsigned : Text → Text
  | [] => []
  | c :: rest => if c == '+' || c == '-' then rest else c :: rest

def isInt (t : Text) : Bool :=
  !(unsigned t).isEmpty && (unsigned t).all Char.isDigit

/-- Digits around the first point. Either side may be missing, but not both. -/
def isDouble (t : Text) : Bool :=
  let whole := (unsigned t).takeWhile (· != '.')
  let fraction := ((unsigned t).dropWhile (· != '.')).drop 1
  (!whole.isEmpty || !fraction.isEmpty) && whole.all Char.isDigit && fraction.all Char.isDigit

def isNumeric (t : Text) : Bool :=
  isInt t || isDouble t

def isBoolean (t : Text) : Bool :=
  t == Keyword.truth || t == Keyword.falsity

/-- Exactly one character, whichever it is, between two single quotes. -/
def isChar : Text → Bool
  | [opening, _, closing] => opening == Text.singleQuote && closing == Text.singleQuote
  | _ => false

/-- The closing double quote is not the opening one. What stands between is not looked at. -/
def isString : Text → Bool
  | [] => false
  | opening :: rest => opening == Text.doubleQuote && rest.getLast? == some Text.doubleQuote

def isOf : Ty → Text → Bool
  | .int => isInt
  | .double => isDouble
  | .boolean => isBoolean
  | .char => isChar
  | .string => isString

end Linewise.Literal
