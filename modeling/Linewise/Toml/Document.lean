import Linewise.Toml.Scalar
import Linewise.Toml.Table

/-! A document of TOML is a sequence of lines, each a key with a value or the header of a
table. It is read into a table of tables, or not at all. -/

namespace Linewise.Toml

/-- Keys have fewer parts than this, and values nest less deeply. -/
def limit : Nat := 80

namespace Scan

def isBare (c : Char) : Bool :=
  c.isAlphanum || c == '_' || c == '-'

def keyPart : Scan Text := do
  spaces
  let t ← basic <|> literal <|> some1 isBare
  spaces
  return t

def keyParts : Nat → Scan (List Text)
  | 0 => failure
  | rounds + 1 => do
    let part ← keyPart
    match ← peek with
    | some '.' => do
      mark '.'
      return part :: (← keyParts rounds)
    | _ => return [part]

/-- A key, split into the path it goes along and the name it ends in. -/
def key : Scan (List Text × Text) := do
  let parts ← keyParts (limit - 1)
  match parts.getLast? with
  | none => failure
  | some last => return (parts.dropLast, last)

/-- The elements of an array after its opening bracket. A comma may follow the last. -/
def elements (element : Scan Value) : Nat → Scan Unit
  | 0 => failure
  | rounds + 1 => do
    gaps
    (mark ']') <|> do
      let _ ← element
      gaps
      (mark ']') <|> do
        mark ','
        elements element rounds

def pair (element : Scan Value) : Scan (List Text × Text × Value) := do
  let (path, name) ← key
  mark '='
  spaces
  let v ← element
  spaces
  return (path, name, v)

/-- The pairs of a table on one line. Here no comma may follow the last. -/
def pairs (element : Scan Value) (table : Table) : Nat → Scan Unit
  | 0 => failure
  | rounds + 1 => do
    let (path, name, v) ← pair element
    let table ← (table.insert path name v : Option Table)
    (mark '}') <|> do
      mark ','
      pairs element table rounds

def value : Nat → Scan Value
  | 0 => (Value.text <$> quoted) <|> (do
    scalar
    return .other)
  | depth + 1 =>
    (do
      mark '['
      elements (value depth) ((← get).length + 1)
      return .other)
    <|> (do
      mark '\x7b'
      (do
        spaces
        mark '\x7d') <|> pairs (value depth) [] ((← get).length + 1)
      return .other)
    <|> value 0

end Scan

/-- What has been read so far, and the header that the next key belongs to. -/
structure Draft where
  root : Table := []
  header : List Text := []

namespace Scan

def header (draft : Draft) : Scan Draft := do
  mark '['
  (do
    mark '['
    let (path, name) ← key
    token [']', ']']
    lineEnd
    let root ← (draft.root.openElement path name : Option Table)
    return ⟨root, path ++ [name]⟩)
  <|> (do
    let (path, name) ← key
    mark ']'
    lineEnd
    let root ← (draft.root.openTable path name : Option Table)
    return ⟨root, path ++ [name]⟩)

def assignment (draft : Draft) : Scan Draft := do
  let (path, name) ← key
  mark '='
  spaces
  let v ← value (limit - 1)
  lineEnd
  let root ← (draft.root.insertUnder draft.header path name v : Option Table)
  return { draft with root }

def expressions (draft : Draft) : Nat → Scan Draft
  | 0 => failure
  | rounds + 1 => do
    spaces
    match ← peek with
    | none => return draft
    | some '[' => do
      let draft ← header draft
      expressions draft rounds
    | some '#' | some '\n' | some '\r' => do
      lineEnd
      expressions draft rounds
    | some _ => do
      let draft ← assignment draft
      expressions draft rounds

end Scan

/-- A byte order mark in front of a document is not part of it. -/
def document? (t : Text) : Option Table :=
  let t := if t.head? = some '\ufeff' then t.drop 1 else t
  ((Scan.expressions {} (t.length + 1)).run' t).map Draft.root

end Linewise.Toml
