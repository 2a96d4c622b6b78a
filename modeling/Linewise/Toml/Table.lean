import Linewise.Text.Blank

/-! Tables of TOML grow while a document is read, and how a table came about decides what
may still be added to it. -/

namespace Linewise.Toml

/-- Only texts are told apart from other values, which have been read for their form. -/
inductive Value
  | text (t : Text)
  | other
  deriving DecidableEq, Repr

/-- A table has a header of its own, or it is there because a longer header or a key with
dots passed through it. -/
inductive Origin
  | header
  | passedByHeader
  | passedByKey
  deriving DecidableEq, Repr

/-- Of an array of tables only the last can still be seen. -/
inductive Item
  | value (v : Value)
  | table (origin : Origin) (entries : List (Text × Item))
  | tables (last : List (Text × Item))

abbrev Table := List (Text × Item)

namespace Table

def get? (table : Table) (key : Text) : Option Item :=
  table.lookup key

def put (key : Text) (item : Item) : Table → Table
  | [] => [(key, item)]
  | (other, held) :: rest =>
    if other = key then (key, item) :: rest else (other, held) :: put key item rest

/-- Putting an item changes what is found under its key and nothing else. -/
theorem get?_put (key wanted : Text) (item : Item) (table : Table) :
    (table.put key item).get? wanted = if wanted = key then some item else table.get? wanted := by
  induction table with
  | nil =>
    by_cases h : wanted = key
    · simp [put, get?, h]
    · simp [put, get?, List.lookup_cons, h, beq_false_of_ne h]
  | cons entry rest ih =>
    rcases entry with ⟨other, held⟩
    simp only [get?] at ih
    by_cases same : other = key
    · subst same
      by_cases h : wanted = other
      · simp [put, get?, h]
      · simp [put, get?, List.lookup_cons, h, beq_false_of_ne h]
    · by_cases h : wanted = other
      · subst h
        simp [put, get?, same]
      · simp [put, get?, List.lookup_cons, same, beq_false_of_ne h, ih]

/-- Changes the table that a path leads to, and makes the tables that are missing on the way.
A key with dots may not pass through a table that has a header. -/
def change (passing : Origin) (edit : Origin → Table → Option Table) :
    Origin → List Text → Table → Option Table
  | origin, [], table => edit origin table
  | _, key :: path, table =>
    match table.get? key with
    | none => do
      let inner ← change passing edit passing path []
      some (table.put key (.table passing inner))
    | some (.value _) => none
    | some (.tables last) => do
      let inner ← change passing edit .header path last
      some (table.put key (.tables inner))
    | some (.table origin entries) =>
      if passing = .passedByKey && origin = .header then none
      else do
        let inner ← change passing edit origin path entries
        some (table.put key (.table origin inner))

/-- A key with dots ends in a table of its own kind, and a plain key in any other. -/
def insert (path : List Text) (key : Text) (v : Value) (table : Table) : Option Table :=
  change .passedByKey
    (fun origin inner =>
      if (origin == .passedByKey) == path.isEmpty then none
      else if (inner.get? key).isSome then none
      else some (inner.put key (.value v)))
    .header path table

/-- A table gets a header once, and only if no key with dots has made it. -/
def openTable (path : List Text) (key : Text) (table : Table) : Option Table :=
  change .passedByHeader
    (fun _ outer =>
      match outer.get? key with
      | none => some (outer.put key (.table .header []))
      | some (.table .passedByHeader entries) => some (outer.put key (.table .header entries))
      | some _ => none)
    .header path table

def openElement (path : List Text) (key : Text) (table : Table) : Option Table :=
  change .passedByHeader
    (fun _ outer =>
      match outer.get? key with
      | none | some (.tables _) => some (outer.put key (.tables []))
      | some _ => none)
    .header path table

/-- Inserts below the header that was opened last. -/
def insertUnder (header path : List Text) (key : Text) (v : Value) (table : Table) : Option Table :=
  change .passedByHeader (fun _ inner => inner.insert path key v) .header header table

end Table
end Linewise.Toml
