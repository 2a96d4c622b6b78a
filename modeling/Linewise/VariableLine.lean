import Linewise.Keyword
import Linewise.Text.Quoted
import Linewise.Text.Word
import Linewise.Ty

/-! A line about variables is a list of fragments, each a name and perhaps a value. With a
type in front it declares, without one it assigns. Any line can be read this way, so the
names and the values are checked afterwards. -/

namespace Linewise

structure Fragment where
  name : Text
  value? : Option Text
  deriving DecidableEq, Repr

/-- The first equals sign ends the name. -/
def Fragment.ofText (t : Text) : Fragment :=
  match t.dropWhile (· != '=') with
  | [] => ⟨t.trim, none⟩
  | _ :: value => ⟨Text.trim (t.takeWhile (· != '=')), some (Text.trim value)⟩

inductive VariableLine
  | declaration (isFinal : Bool) (ty : Ty) (fragments : List Fragment)
  | assignment (fragments : List Fragment)
  deriving DecidableEq, Repr

namespace VariableLine

/-- What follows a word and the blanks after it. Here a word ends at a blank only. -/
def afterSpaced? (t word : Text) : Option Text :=
  match t.after? word with
  | none => none
  | some rest => rest.afterBlanks?

def firstWord (t : Text) : Text :=
  t.trimLeft.takeWhile fun c => !Text.isBlank c

def withoutEnd (t : Text) : Text :=
  (t.beforeLast? ';').getD t

def fragmentsOf (t : Text) : List Fragment :=
  (withoutEnd t).splitOutside ',' |>.map Fragment.ofText

/-- A line that is final but has no type is about no variable at all. A type that nothing
follows is left to be read as a name, which it cannot be. -/
def ofLine? (line : Text) : Option VariableLine :=
  let line := line.trim
  let final? := afterSpaced? line Keyword.final
  let rest := final?.getD line
  match Ty.ofKeyword? (firstWord rest) with
  | some ty => some (declaration final?.isSome ty (fragmentsOf ((afterSpaced? rest ty.keyword).getD rest)))
  | none => if final?.isSome then none else some (assignment (fragmentsOf rest))

end VariableLine
end Linewise
