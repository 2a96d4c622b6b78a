import Linewise.Toml.Quoted

/-! Numbers, dates and truth values. Settings hold none of them, but a document that holds
one in the wrong form is no document, so each is read and forgotten. -/

namespace Linewise.Toml.Scan

/-- Digits with single underscores between them. -/
def digitsLeft (accepts : Char → Bool) : Nat → Scan Text
  | 0 => return []
  | rounds + 1 =>
    (do
      let c ← (do
        mark '_'
        one accepts) <|> one accepts
      return c :: (← digitsLeft accepts rounds)) <|> pure []

def digits (accepts : Char → Bool) : Scan Text := do
  let first ← one accepts
  return first :: (← digitsLeft accepts (← get).length)

def isSign (c : Char) : Bool :=
  c == '+' || c == '-'

def sign? : Scan (Option Char) := do
  match ← peek with
  | some c => if isSign c then some <$> one isSign else return none
  | none => return none

/-- A number in base ten starts with zero only if it is zero. -/
def decimal : Scan Text := do
  match ← peek with
  | some '0' => do
    mark '0'
    return ['0']
  | _ => digits Char.isDigit

def largest : Nat := Nat.pow 2 63 - 1

/-- Integers fit into 64 bits with a sign. -/
def fits (negative : Bool) (magnitude : Nat) : Bool :=
  magnitude ≤ (if negative then largest + 1 else largest)

def based (letter : Char) (base : Nat) (accepts : Char → Bool) : Scan Unit := do
  token ['0', letter]
  let t ← digits accepts
  if fits false (numeral base t) then return else failure

def exponent : Scan Int := do
  let _ ← one fun c => c == 'e' || c == 'E'
  let sign ← sign?
  let magnitude := numeral 10 (← digits Char.isDigit)
  return if sign = some '-' then -(magnitude : Int) else magnitude

def fraction : Scan Text := do
  mark '.'
  digits Char.isDigit

/-- The least value that is rounded to infinity instead of the largest double. -/
def overflow : Nat := Nat.pow 2 1024 - Nat.pow 2 970

/-- Whether a number times a power of ten overflows. Its length settles all but the close
cases, so no power grows with the exponent that is written. -/
def overflows (mantissa : Nat) (exponent : Int) : Bool :=
  if mantissa = 0 then false
  else
    let length : Int := (Nat.toDigits 10 mantissa).length + exponent
    if length < 300 then false
    else if 320 < length then true
    else if 0 ≤ exponent then overflow ≤ mantissa * Nat.pow 10 exponent.toNat
    else overflow * Nat.pow 10 (-exponent).toNat ≤ mantissa

def named : Scan Unit :=
  token ['i', 'n', 'f'] <|> token ['n', 'a', 'n']

/-- Overflow matters on the positive side only: a negative number of any size is taken. -/
def number : Scan Unit := do
  let sign ← sign?
  named <|> do
    let whole ← decimal
    let part? ← (some <$> fraction) <|> pure none
    let power? ← (some <$> exponent) <|> pure none
    let negative := sign = some '-'
    let accepted :=
      if part?.isNone && power?.isNone then fits negative (numeral 10 whole)
      else
        let part := part?.getD []
        negative || !overflows (numeral 10 (whole ++ part)) (power?.getD 0 - part.length)
    if accepted then return else failure

def field (count low high : Nat) : Scan Nat := do
  let n := numeral 10 (← exactly count Char.isDigit)
  if low ≤ n && n ≤ high then return n else failure

def isLeap (year : Nat) : Bool :=
  year % 4 == 0 && (year % 100 != 0 || year % 400 == 0)

def daysIn (year month : Nat) : Nat :=
  if month = 2 then (if isLeap year then 29 else 28)
  else if month = 4 || month = 6 || month = 9 || month = 11 then 30
  else 31

def date : Scan Unit := do
  let year ← field 4 0 9999
  mark '-'
  let month ← field 2 1 12
  mark '-'
  let _ ← field 2 1 (daysIn year month)

/-- A minute may have a leap second. -/
def time : Scan Unit := do
  let _ ← field 2 0 23
  mark ':'
  let _ ← field 2 0 59
  mark ':'
  let _ ← field 2 0 60
  (do
    mark '.'
    let _ ← some1 Char.isDigit) <|> pure ()

def offset : Scan Unit :=
  (do let _ ← one fun c => c == 'Z' || c == 'z') <|> do
    let _ ← one isSign
    let _ ← field 2 0 23
    mark ':'
    let _ ← field 2 0 59

/-- A date, a time, or both with a single mark between them. -/
def dateTime : Scan Unit :=
  (do
    date
    (do
      let _ ← one fun c => c == 'T' || c == 't' || c == ' '
      time
      offset <|> pure ()) <|> pure ())
    <|> time

def isOctal (c : Char) : Bool :=
  '0' ≤ c && c ≤ '7'

def isBinary (c : Char) : Bool :=
  c == '0' || c == '1'

def truth : Scan Unit :=
  token ['t', 'r', 'u', 'e'] <|> token ['f', 'a', 'l', 's', 'e']

def scalar : Scan Unit :=
  truth <|> dateTime <|> based 'x' 16 isHex <|> based 'o' 8 isOctal <|> based 'b' 2 isBinary <|> number

end Linewise.Toml.Scan
