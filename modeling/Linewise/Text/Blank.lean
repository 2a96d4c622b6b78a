/-! Text is a list of characters, so that every reader below is a recursion a proof can
follow. A blank is a character with the `White_Space` property, and blanks separate words
wherever a line is read: how many there are, and which, never matters. -/

namespace Linewise

abbrev Text := List Char

namespace Text

/-- The whole property, in the order of the code points. -/
def blanks : List Char :=
  ['\t', '\n', '\x0b', '\x0c', '\r', ' ', '\u0085', '\u00a0', '\u1680',
   '\u2000', '\u2001', '\u2002', '\u2003', '\u2004', '\u2005', '\u2006', '\u2007', '\u2008',
   '\u2009', '\u200a', '\u2028', '\u2029', '\u202f', '\u205f', '\u3000']

def isBlank (c : Char) : Bool :=
  blanks.contains c

def trimLeft (t : Text) : Text :=
  t.dropWhile isBlank

def trimRight (t : Text) : Text :=
  (t.reverse.dropWhile isBlank).reverse

def trim (t : Text) : Text :=
  t.trimLeft.trimRight

/-- Every run of blanks becomes one space. What is already squeezed starts with at most
one blank, so dropping it there is enough. -/
def squeeze : Text → Text
  | [] => []
  | c :: rest => if isBlank c then ' ' :: (squeeze rest).trimLeft else c :: squeeze rest

/-- The words of a text with one space between them. -/
def collapse (t : Text) : Text :=
  t.trim.squeeze

theorem isBlank_iff {c : Char} : isBlank c = true ↔ c ∈ blanks := by
  simp [isBlank]

theorem trimLeft_cons (c : Char) (t : Text) :
    trimLeft (c :: t) = if isBlank c then trimLeft t else c :: t := by
  simp [trimLeft, List.dropWhile_cons]

theorem trimLeft_trimLeft (t : Text) : t.trimLeft.trimLeft = t.trimLeft := by
  induction t with
  | nil => rfl
  | cons c t ih =>
    rw [trimLeft_cons]
    split
    · exact ih
    · next h => rw [trimLeft_cons, if_neg h]

end Text
end Linewise
