import Linewise.Toml.Scan

/-! Strings of TOML: basic ones know escapes and literal ones do not, and both have a form
for one line and a form for several. -/

namespace Linewise.Toml.Scan

def basicQuote : Char := '\x22'

def literalQuote : Char := '\x27'

def hexValue? (c : Char) : Option Nat :=
  if c.isDigit then some (c.toNat - '0'.toNat)
  else if 'a' ≤ c && c ≤ 'f' then some (c.toNat - 'a'.toNat + 10)
  else if 'A' ≤ c && c ≤ 'F' then some (c.toNat - 'A'.toNat + 10)
  else none

def isHex (c : Char) : Bool :=
  (hexValue? c).isSome

/-- A number read in a base from digits whose values are known to be below it. -/
def numeral (base : Nat) (digits : Text) : Nat :=
  digits.foldl (fun sum c => sum * base + (hexValue? c).getD 0) 0

/-- A character by its code point, which surrogates are not. -/
def codePoint (digits : Nat) : Scan Char := do
  let code := numeral 16 (← exactly digits isHex)
  if code.isValidChar then return Char.ofNat code else failure

/-- What stands for a character after a backslash. -/
def escaped : Scan Char := do
  let c ← one fun _ => true
  if c = 'b' then return '\x08'
  else if c = 't' then return '\t'
  else if c = 'n' then return '\n'
  else if c = 'f' then return '\x0c'
  else if c = 'r' then return '\r'
  else if c = basicQuote || c = '\\' then return c
  else if c = 'u' then codePoint 4
  else if c = 'U' then codePoint 8
  else failure

/-- The rest of a basic string on one line. -/
def basicRest : Nat → Scan Text
  | 0 => failure
  | rounds + 1 => do
    let c ← one fun c => isPlain c
    if c = basicQuote then return []
    else
      let c ← if c = '\\' then escaped else pure c
      return c :: (← basicRest rounds)

def basic : Scan Text := do
  mark basicQuote
  basicRest (← get).length

def literal : Scan Text := do
  mark literalQuote
  let t ← many fun c => isPlain c && c != literalQuote
  mark literalQuote
  return t

def skipLines : Text → Text
  | [] => []
  | '\r' :: '\n' :: rest => skipLines rest
  | c :: rest => if isSpace c || c = '\n' then skipLines rest else c :: rest

/-- A line that ends in a backslash goes on at the next character that is no white space. -/
def continuation : Scan Unit := do
  spaces
  newline
  modify skipLines

/-- Up to two quotes may stand before the three that close a string of several lines. -/
def closing (quote : Char) : Scan (Option Text) := do
  let t ← get
  let run := (t.takeWhile (· == quote)).length
  if run < 3 then return none
  else
    let extra := min (run - 3) 2
    set (t.drop (3 + extra))
    return some (List.replicate extra quote)

/-- One character of a string of several lines, where every end of a line is a line feed. -/
def lineChar : Scan Char := do
  match ← peek with
  | some '\n' | some '\r' => do
    newline
    return '\n'
  | _ => one isPlain

def multilineRest (quote : Char) : Nat → Scan Text
  | 0 => failure
  | rounds + 1 => do
    match ← closing quote with
    | some extra => return extra
    | none =>
      let c ← lineChar
      let taken ←
        if c = '\\' && quote = basicQuote then
          (do
            continuation
            return []) <|> (do return [← escaped])
        else pure [c]
      return taken ++ (← multilineRest quote rounds)

/-- The end of a line right after the opening quotes is not part of the string. -/
def multiline (quote : Char) : Scan Text := do
  token [quote, quote, quote]
  newline <|> pure ()
  multilineRest quote ((← get).length + 1)

def quoted : Scan Text :=
  multiline basicQuote <|> basic <|> multiline literalQuote <|> literal

end Linewise.Toml.Scan
