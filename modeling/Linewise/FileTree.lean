import Linewise.Path
import Linewise.Reading

/-! A tree of files that is held whole, so that what a check reads is a function of the tree.
Of the world around the tree nothing is known but that its root lies in some directory. -/

namespace Linewise

/-- A path from the root and the bytes of the file there. Without bytes it is a directory. -/
structure FileTree.Entry where
  path : List Text
  content? : Option ByteArray

abbrev FileTree := List FileTree.Entry

namespace FileTree

inductive Place
  | inside (path : List Text)
  | outside

inductive Node
  | file (content : ByteArray)
  | directory

def node? (tree : FileTree) (path : List Text) : Option Node :=
  match tree.find? fun entry => entry.path == path && entry.content?.isSome with
  | some ⟨_, some content⟩ => some (.file content)
  | _ => if path.isEmpty || tree.any fun entry => path.isPrefixOf entry.path then some .directory else none

def nodeAt? (tree : FileTree) : Place → Option Node
  | .inside path => tree.node? path
  | .outside => some .directory

/-- The place that a name leads to from a directory. -/
def enter (tree : FileTree) (place : Place) (name : Text) : Except ReadFault Place :=
  match tree.nodeAt? place with
  | none => .error .missing
  | some (.file _) => .error .throughFile
  | some .directory =>
    if name.isEmpty || name = Path.here then .ok place
    else match place with
      | .outside => if name = Path.parent then .ok .outside else .error .missing
      | .inside path =>
        if name = Path.parent then .ok (if path.isEmpty then .outside else .inside path.dropLast)
        else match tree.node? (path ++ [name]) with
          | none => .error .missing
          | some _ => .ok (.inside (path ++ [name]))

def find (tree : FileTree) (path : Text) : Except ReadFault Node :=
  if path.isEmpty then .error .missing
  else
    let start : Place := if path.head? = some Path.slash then .outside else .inside []
    match (path.splitOn Path.slash).foldlM tree.enter start with
    | .error fault => .error fault
    | .ok place =>
      match tree.nodeAt? place with
      | none => .error .missing
      | some node => .ok node

def read (tree : FileTree) (path : Text) : Except ReadFault Text :=
  match tree.find path with
  | .error fault => .error fault
  | .ok .directory => .error .directory
  | .ok (.file content) => decode content

end FileTree
end Linewise
