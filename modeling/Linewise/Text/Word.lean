import Linewise.Text.Blank

/-! Words of a line are read from its front and closing marks from its end. A reader takes
the text that is left and answers with what remains, or with nothing where it does not apply. -/

namespace Linewise.Text

/-- Names are written in ASCII: a letter elsewhere in Unicode ends a word. -/
def isWordChar (c : Char) : Bool :=
  c.isAlphanum || c == '_'

def startsWord : Text → Bool
  | [] => false
  | c :: _ => isWordChar c

/-- What follows a token at the front. -/
def after? : Text → Text → Option Text
  | t, [] => some t
  | [], _ :: _ => none
  | d :: t, c :: token => if d = c then after? t token else none

/-- Unlike `after?`, the word may not run on into a longer one. -/
def afterWord? (t word : Text) : Option Text :=
  match t.after? word with
  | none => none
  | some rest => if rest.startsWord then none else some rest

/-- At least one blank has to stand here, and all of them are passed. -/
def afterBlanks? : Text → Option Text
  | [] => none
  | c :: rest => if isBlank c then some (trimLeft rest) else none

/-- A name before it is known to be a valid one: it starts with a letter or an underscore
and goes as far as word characters do. -/
def rawName? : Text → Option (Text × Text)
  | [] => none
  | c :: rest =>
    if c.isAlpha || c == '_' then
      some (c :: rest.takeWhile isWordChar, rest.dropWhile isWordChar)
    else none

def beforeLast? (last : Char) (t : Text) : Option Text :=
  if t.getLast? = some last then some t.dropLast else none

/-- What stands between an opening parenthesis at the front and a closing one before the
mark that ends the line. Blanks may stand around both. -/
def bracketed? (mark : Char) (t : Text) : Option Text :=
  match t.trimLeft.after? ['('] with
  | none => none
  | some rest =>
    match rest.beforeLast? mark with
    | none => none
    | some inner => inner.trimRight.beforeLast? ')'

theorem after?_eq_some_iff {t token rest : Text} : t.after? token = some rest ↔ t = token ++ rest := by
  induction token generalizing t with
  | nil => simp [after?]
  | cons c token ih =>
    cases t with
    | nil => simp [after?]
    | cons d t => by_cases h : d = c <;> simp [after?, h, ih]

theorem afterWord?_eq_some_iff {t word rest : Text} :
    t.afterWord? word = some rest ↔ t = word ++ rest ∧ rest.startsWord = false := by
  unfold afterWord?
  rw [← after?_eq_some_iff]
  cases t.after? word with
  | none => simp
  | some found =>
    cases h : found.startsWord with
    | true =>
      simp only [h, if_true, reduceCtorEq, Option.some.injEq, false_iff, not_and]
      rintro rfl
      simp [h]
    | false =>
      simp only [h, Bool.false_eq_true, if_false, Option.some.injEq]
      constructor
      · rintro rfl
        exact ⟨rfl, h⟩
      · exact And.left

theorem beforeLast?_eq_some_iff {last : Char} {t front : Text} :
    t.beforeLast? last = some front ↔ t = front ++ [last] := by
  unfold beforeLast?
  constructor
  · intro h
    split at h
    · next hl =>
      obtain ⟨ys, rfl⟩ := List.getLast?_eq_some_iff.mp hl
      simpa using h
    · cases h
  · rintro rfl
    simp

/-- A raw name and what follows it make up the text they were read from. -/
theorem append_of_rawName? {t name rest : Text} (h : t.rawName? = some (name, rest)) :
    name ++ rest = t := by
  cases t with
  | nil => cases h
  | cons c t =>
    simp only [rawName?] at h
    split at h
    · obtain ⟨rfl, rfl⟩ := by simpa using h
      simp [List.takeWhile_append_dropWhile]
    · cases h

end Linewise.Text
