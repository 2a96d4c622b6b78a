import Linewise.Text.Blank

/-! Paths are texts with slashes. Slashes in a row are one, and a dot names the directory it
stands in. -/

namespace Linewise.Path

def slash : Char := '/'

def here : Text := ['.']

def parent : Text := ['.', '.']

/-- The names on a path that lead somewhere else. -/
def components (path : Text) : List Text :=
  (path.splitOn slash).filter fun name => !name.isEmpty && name != here

/-- The name a path ends in. A path that ends by going up ends in no name. -/
def fileName? (path : Text) : Option Text :=
  match (components path).getLast? with
  | none => none
  | some name => if name = parent then none else some name

/-- What follows the last dot of a name. A dot in front hides a file and starts no extension. -/
def extensionOf? (name : Text) : Option Text :=
  let ending := name.reverse.takeWhile (· != '.')
  match name.reverse.dropWhile (· != '.') with
  | [] | [_] => none
  | _ :: _ :: _ => some ending.reverse

def extension? (path : Text) : Option Text :=
  (fileName? path).bind extensionOf?

/-- A name inside a directory. -/
def child (directory name : Text) : Text :=
  match directory.getLast? with
  | none => name
  | some last => if last = slash then directory ++ name else directory ++ slash :: name

end Linewise.Path
