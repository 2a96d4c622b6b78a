import Linewise.Text.Blank

/-! A text in quotes hides the marks inside it. A quote of either kind opens where none is
open, and only the same kind closes it, so each kind hides the other. -/

namespace Linewise.Text

def singleQuote : Char := '\x27'

def doubleQuote : Char := '\x22'

def isQuote (c : Char) : Bool :=
  c == doubleQuote || c == singleQuote

/-- The quote that is open after a character, given the one that was open before it. -/
def quoteAfter (opened : Option Char) (c : Char) : Option Char :=
  match opened with
  | none => if isQuote c then some c else none
  | some quote => if c = quote then none else some quote

/-- A mark separates where no quote is open. A quote never separates: it opens instead. -/
def separates (mark : Char) (opened : Option Char) (c : Char) : Bool :=
  opened.isNone && !isQuote c && c == mark

/-- The pieces between the marks. There is always one, which is empty for an empty text. -/
def splitFrom (mark : Char) (opened : Option Char) : Text → List Text
  | [] => [[]]
  | c :: rest =>
    let pieces := splitFrom mark (quoteAfter opened c) rest
    if separates mark opened c then [] :: pieces
    else match pieces with
      | [] => [[c]]
      | piece :: others => (c :: piece) :: others

def splitOutside (mark : Char) (t : Text) : List Text :=
  splitFrom mark none t

/-- Messages show a text this way. Quotes inside it stay as they are. -/
def cite (t : Text) : String :=
  "'" ++ String.ofList t ++ "'"

theorem splitFrom_ne_nil (mark : Char) (opened : Option Char) (t : Text) :
    splitFrom mark opened t ≠ [] := by
  cases t with
  | nil => simp [splitFrom]
  | cons c rest =>
    simp only [splitFrom]
    split
    · simp
    · split <;> simp

/-- Cutting loses nothing but the marks it cuts at. -/
theorem intercalate_splitFrom (mark : Char) (opened : Option Char) (t : Text) :
    [mark].intercalate (splitFrom mark opened t) = t := by
  induction t generalizing opened with
  | nil => rfl
  | cons c rest ih =>
    have cut := ih (quoteAfter opened c)
    have nonempty := splitFrom_ne_nil mark (quoteAfter opened c) rest
    simp only [splitFrom]
    cases pieces : splitFrom mark (quoteAfter opened c) rest with
    | nil => exact absurd pieces nonempty
    | cons piece others =>
      rw [pieces] at cut
      split
      · next h =>
        obtain rfl : c = mark := by
          simp only [separates, Bool.and_eq_true, beq_iff_eq] at h
          exact h.2
        simpa [List.intercalate, List.intersperse] using cut
      · cases others with
        | nil => simpa [List.intercalate, List.intersperse] using cut
        | cons next others => simpa [List.intercalate, List.intersperse] using cut

end Linewise.Text
