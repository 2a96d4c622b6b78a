import Linewise.Text.Blank

/-! A scan takes a part off the front of a text or fails. Here are the parts that all of TOML
is made of: white space, comments and the ends of lines. -/

namespace Linewise.Toml

/-- White space and line feeds are told apart, and no other blank counts as either. -/
def isSpace (c : Char) : Bool :=
  c == ' ' || c == '\t'

/-- Characters that a comment or a string may hold as they are. -/
def isPlain (c : Char) : Bool :=
  c == '\t' || (' ' ≤ c && c != '\x7f')

abbrev Scan := StateT Text Option

namespace Scan

def peek : Scan (Option Char) := do
  return (← get).head?

def one (accepts : Char → Bool) : Scan Char := do
  match ← get with
  | [] => failure
  | c :: rest =>
    if accepts c then
      set rest
      return c
    else failure

def mark (c : Char) : Scan Unit := do
  let _ ← one (· == c)

def many (accepts : Char → Bool) : Scan Text := do
  let t ← get
  set (t.dropWhile accepts)
  return t.takeWhile accepts

def some1 (accepts : Char → Bool) : Scan Text := do
  let first ← one accepts
  return first :: (← many accepts)

/-- Exactly so many characters. -/
def exactly (count : Nat) (accepts : Char → Bool) : Scan Text := do
  let t ← get
  let front := t.take count
  if front.length = count && front.all accepts then
    set (t.drop count)
    return front
  else failure

def token : Text → Scan Unit
  | [] => return
  | c :: rest => do
    mark c
    token rest

def spaces : Scan Unit := do
  let _ ← many isSpace

def newline : Scan Unit :=
  token ['\n'] <|> token ['\r', '\n']

def atEnd : Scan Unit := do
  match ← get with
  | [] => return
  | _ :: _ => failure

def comment : Scan Unit := do
  mark '#'
  let _ ← many isPlain

/-- What may follow a complete expression on its line. -/
def lineEnd : Scan Unit := do
  spaces
  if (← peek) = some '#' then comment
  newline <|> atEnd

/-- White space, comments and ends of lines, in any order. Each round takes at least one
character, so the length of the text bounds the rounds. -/
def gap : Nat → Scan Unit
  | 0 => return
  | rounds + 1 => do
    spaces
    match ← peek with
    | some '#' => do
      comment
      newline
      gap rounds
    | some '\n' | some '\r' => do
      newline
      gap rounds
    | _ => return

def gaps : Scan Unit := do
  gap ((← get).length + 1)

end Scan
end Linewise.Toml
