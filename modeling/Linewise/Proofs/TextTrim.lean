import Linewise.Text.Word

/-! Trimming takes away blanks and nothing else, and what it leaves starts and ends with something to
read, so trimming that again does nothing. A raw name is the longest one that could be read where it
stands, and brackets are read from the ends of a text, whatever stands between them. -/

namespace Linewise.Text

theorem isBlank_of_head?_trimLeft {t : Text} {c : Char} (head : t.trimLeft.head? = some c) :
    isBlank c = false := by
  have stopped := List.head?_dropWhile_not isBlank t
  rw [trimLeft] at head
  rw [head] at stopped
  simpa using stopped

theorem trimLeft_eq_self {t : Text} (head : ∀ c, t.head? = some c → isBlank c = false) :
    t.trimLeft = t := by
  cases t with
  | nil => rfl
  | cons c t =>
    rw [trimLeft_cons, head c rfl]
    rfl

theorem trimLeft_ink {c : Char} (ink : isBlank c = false) (t : Text) : trimLeft (c :: t) = c :: t := by
  rw [trimLeft_cons, if_neg (by simp [ink])]

theorem trimLeft_blank {c : Char} (blank : isBlank c = true) (t : Text) : trimLeft (c :: t) = trimLeft t := by
  rw [trimLeft_cons, if_pos blank]

theorem trimLeft_append_blanks {gap : Text} (blank : ∀ c ∈ gap, isBlank c = true) (t : Text) :
    trimLeft (gap ++ t) = t.trimLeft :=
  List.dropWhile_append_of_pos blank

theorem trimLeft_append_ink {c : Char} (ink : isBlank c = false) (t rest : Text) :
    trimLeft (t ++ c :: rest) = t.trimLeft ++ c :: rest := by
  induction t with
  | nil => exact trimLeft_ink ink rest
  | cons d t ih =>
    cases blank : isBlank d with
    | false => rw [List.cons_append, trimLeft_ink blank, trimLeft_ink blank, List.cons_append]
    | true => rw [List.cons_append, trimLeft_blank blank, trimLeft_blank blank, ih]

theorem trimRight_append_blanks {gap : Text} (blank : ∀ c ∈ gap, isBlank c = true) (t : Text) :
    trimRight (t ++ gap) = t.trimRight := by
  have reversed : ∀ c ∈ gap.reverse, isBlank c = true := fun c member => blank c (List.mem_reverse.mp member)
  rw [trimRight, trimRight, List.reverse_append, List.dropWhile_append_of_pos reversed]

theorem trimRight_append_cons_ink {c : Char} (ink : isBlank c = false) (t rest : Text) :
    trimRight (t ++ c :: rest) = t ++ c :: rest.trimRight := by
  have turned : (t ++ c :: rest).reverse = rest.reverse ++ c :: t.reverse := by simp
  have stops : (rest.reverse ++ c :: t.reverse).dropWhile isBlank = trimLeft rest.reverse ++ c :: t.reverse :=
    trimLeft_append_ink ink _ _
  rw [trimRight, turned, stops]
  simp [trimRight, trimLeft]

theorem trimRight_append_ink {c : Char} (ink : isBlank c = false) (t : Text) : trimRight (t ++ [c]) = t ++ [c] :=
  trimRight_append_cons_ink ink t []

theorem all_isBlank_takeWhile (t : Text) : ∀ c ∈ t.takeWhile isBlank, isBlank c = true :=
  List.all_eq_true.mp List.all_takeWhile

theorem exists_of_trimLeft (t : Text) : ∃ blanks, t = blanks ++ t.trimLeft ∧ ∀ c ∈ blanks, isBlank c = true :=
  ⟨t.takeWhile isBlank, List.takeWhile_append_dropWhile.symm, all_isBlank_takeWhile t⟩

theorem exists_of_trimRight (t : Text) : ∃ blanks, t = t.trimRight ++ blanks ∧ ∀ c ∈ blanks, isBlank c = true := by
  refine ⟨(t.reverse.takeWhile isBlank).reverse, ?_, ?_⟩
  · rw [trimRight, ← List.reverse_append, List.takeWhile_append_dropWhile, List.reverse_reverse]
  · intro c member
    exact all_isBlank_takeWhile t.reverse c (List.mem_reverse.mp member)

/-- Trimming takes away nothing but blanks. -/
theorem exists_of_trim (t : Text) : ∃ before after, t = before ++ t.trim ++ after ∧
    (∀ c ∈ before, isBlank c = true) ∧ ∀ c ∈ after, isBlank c = true := by
  obtain ⟨after, whole, blank⟩ := exists_of_trimRight t.trimLeft
  obtain ⟨before, spaced, first⟩ := exists_of_trimLeft t
  refine ⟨before, after, ?_, first, blank⟩
  rw [List.append_assoc, trim, ← whole, ← spaced]

/-- The first such mark in a text, with what stands before it and behind it. -/
theorem eq_append_of_dropWhile {mark c : Char} {t rest : Text} (found : t.dropWhile (· != mark) = c :: rest) :
    c = mark ∧ t = t.takeWhile (· != mark) ++ mark :: rest := by
  have stopped := List.head?_dropWhile_not (· != mark) t
  rw [found] at stopped
  obtain rfl : c = mark := by simpa using stopped
  refine ⟨rfl, ?_⟩
  rw [← found, List.takeWhile_append_dropWhile]

theorem trimRight_prefix (t : Text) : t.trimRight <+: t := by
  have suffixed := List.dropWhile_suffix (l := t.reverse) isBlank
  simpa [trimRight] using List.reverse_prefix.mpr suffixed

theorem trimRight_trimRight (t : Text) : t.trimRight.trimRight = t.trimRight := by
  unfold trimRight
  rw [List.reverse_reverse]
  exact congrArg List.reverse (trimLeft_trimLeft t.reverse)

theorem trimLeft_trim (t : Text) : t.trim.trimLeft = t.trim := by
  apply trimLeft_eq_self
  intro c head
  obtain ⟨rest, whole⟩ := trimRight_prefix t.trimLeft
  apply isBlank_of_head?_trimLeft (t := t)
  rw [← whole, List.head?_append]
  change t.trimLeft.trimRight.head? = some c at head
  simp [head]

@[simp] theorem trim_trim (t : Text) : t.trim.trim = t.trim := by
  unfold trim
  rw [show t.trimLeft.trimRight.trimLeft = t.trimLeft.trimRight from trimLeft_trim t]
  exact trimRight_trimRight t.trimLeft

theorem isBlank_of_head?_trim {t : Text} {c : Char} (head : t.trim.head? = some c) : isBlank c = false := by
  rw [← trimLeft_trim] at head
  exact isBlank_of_head?_trimLeft head

theorem isBlank_of_getLast?_trim {t : Text} {c : Char} (last : t.trim.getLast? = some c) : isBlank c = false := by
  change (trimLeft t.trimLeft.reverse).reverse.getLast? = some c at last
  rw [List.getLast?_reverse] at last
  exact isBlank_of_head?_trimLeft last

theorem trim_eq_self {t : Text} (head : ∀ c, t.head? = some c → isBlank c = false)
    (last : ∀ c, t.getLast? = some c → isBlank c = false) : t.trim = t := by
  have reversed : trimLeft t.reverse = t.reverse := by
    apply trimLeft_eq_self
    intro c first
    rw [List.head?_reverse] at first
    exact last c first
  change (trimLeft t.trimLeft.reverse).reverse = t
  rw [trimLeft_eq_self head, reversed, List.reverse_reverse]

theorem getLast?_trimLeft {t : Text} {c : Char} (last : t.getLast? = some c) (ink : isBlank c = false) :
    t.trimLeft.getLast? = some c := by
  induction t with
  | nil => cases last
  | cons d rest ih =>
    rw [trimLeft_cons]
    split
    · next blank =>
      apply ih
      cases rest with
      | nil =>
        obtain rfl : d = c := by simpa using last
        rw [ink] at blank
        cases blank
      | cons e rest => rwa [List.getLast?_cons_cons] at last
    · exact last

theorem getLast?_squeeze {t : Text} {c : Char} (last : t.getLast? = some c) (ink : isBlank c = false) :
    t.squeeze.getLast? = some c := by
  induction t with
  | nil => cases last
  | cons d rest ih =>
    rw [squeeze]
    cases rest with
    | nil =>
      obtain rfl : d = c := by simpa using last
      rw [if_neg (by simp [ink])]
      rfl
    | cons e rest =>
      rw [List.getLast?_cons_cons] at last
      split
      · rw [List.getLast?_cons, getLast?_trimLeft (ih last) ink]
        rfl
      · rw [List.getLast?_cons, ih last]
        rfl

/-- What is collapsed is trimmed already. -/
theorem trim_collapse (t : Text) : t.collapse.trim = t.collapse := by
  unfold collapse
  cases whole : t.trim with
  | nil => rfl
  | cons c rest =>
    have ink : isBlank c = false := isBlank_of_head?_trim (by rw [whole]; rfl)
    apply trim_eq_self
    · intro d head
      rw [squeeze, if_neg (by simp [ink])] at head
      cases head
      exact ink
    · intro d last
      obtain ⟨final, same⟩ : ∃ final, (c :: rest).getLast? = some final := ⟨_, List.getLast?_cons⟩
      have inked : isBlank final = false := isBlank_of_getLast?_trim (by rw [whole]; exact same)
      rw [getLast?_squeeze same inked] at last
      cases last
      exact inked

theorem isWordChar_of_isBlank {c : Char} (blank : isBlank c = true) : isWordChar c = false := by
  have none : blanks.all (fun c => !isWordChar c) = true := by decide
  have unlike := List.all_eq_true.mp none c (isBlank_iff.mp blank)
  simpa using unlike

theorem isBlank_of_isWordChar {c : Char} (inWord : isWordChar c = true) : isBlank c = false := by
  cases blank : isBlank c with
  | false => rfl
  | true => rw [isWordChar_of_isBlank blank] at inWord; cases inWord

theorem isWordChar_of_starts {c : Char} (starts : (c.isAlpha || c == '_') = true) :
    isWordChar c = true := by
  unfold isWordChar Char.isAlphanum
  cases letter : c.isAlpha with
  | true => rfl
  | false =>
    rw [letter, Bool.false_or] at starts
    rw [starts, Bool.or_true]

def isRawName : Text → Bool
  | [] => false
  | c :: rest => (c.isAlpha || c == '_') && rest.all isWordChar

theorem all_of_isRawName {name : Text} (raw : isRawName name = true) : ∀ c ∈ name, isWordChar c = true := by
  cases name with
  | nil => simp
  | cons c rest =>
    simp only [isRawName, Bool.and_eq_true, List.all_eq_true] at raw
    intro d member
    rcases List.mem_cons.mp member with rfl | member
    · exact isWordChar_of_starts raw.1
    · exact raw.2 d member

theorem ink_of_isRawName {word : Text} (raw : isRawName word = true) : ∀ c ∈ word, isBlank c = false :=
  fun c member => isBlank_of_isWordChar (all_of_isRawName raw c member)

private theorem takeWhile_append_stop {inWord : Char → Bool} {word rest : Text}
    (all : ∀ c ∈ word, inWord c = true) (stops : ∀ c, rest.head? = some c → inWord c = false) :
    (word ++ rest).takeWhile inWord = word := by
  rw [List.takeWhile_append_of_pos all]
  cases rest with
  | nil => simp
  | cons c rest => simp [stops c rfl]

private theorem dropWhile_append_stop {inWord : Char → Bool} {word rest : Text}
    (all : ∀ c ∈ word, inWord c = true) (stops : ∀ c, rest.head? = some c → inWord c = false) :
    (word ++ rest).dropWhile inWord = rest := by
  rw [List.dropWhile_append_of_pos all]
  cases rest with
  | nil => rfl
  | cons c rest => simp [stops c rfl]

theorem startsWord_eq_false_iff {t : Text} :
    t.startsWord = false ↔ ∀ c, t.head? = some c → isWordChar c = false := by
  cases t with
  | nil => simp [startsWord]
  | cons c t => simp [startsWord]

theorem rawName?_eq_some_iff {t name rest : Text} :
    t.rawName? = some (name, rest) ↔ t = name ++ rest ∧ isRawName name = true ∧ rest.startsWord = false := by
  constructor
  · intro found
    cases t with
    | nil => cases found
    | cons c t =>
      simp only [rawName?] at found
      split at found
      · next starts =>
        obtain ⟨rfl, rfl⟩ : _ ∧ _ := by simpa using found
        refine ⟨by simp [List.takeWhile_append_dropWhile], ?_, ?_⟩
        · simp only [isRawName, starts, Bool.true_and]
          exact List.all_takeWhile
        · rw [startsWord_eq_false_iff]
          intro d head
          have stopped := List.head?_dropWhile_not isWordChar t
          rw [head] at stopped
          simpa using stopped
      · cases found
  · rintro ⟨whole, raw, stops⟩
    subst whole
    cases name with
    | nil => cases raw
    | cons c name =>
      have all := all_of_isRawName raw
      rw [startsWord_eq_false_iff] at stops
      simp only [isRawName, Bool.and_eq_true] at raw
      have inName : ∀ d ∈ name, isWordChar d = true := fun d member => all d (by simp [member])
      simp only [List.cons_append, rawName?, raw.1, if_true]
      rw [takeWhile_append_stop inName stops, dropWhile_append_stop inName stops]

theorem afterBlanks?_eq_some_iff {t rest : Text} :
    t.afterBlanks? = some rest ↔ ∃ c more, t = c :: more ∧ isBlank c = true ∧ rest = trimLeft more := by
  constructor
  · intro spaced
    cases t with
    | nil => cases spaced
    | cons c t =>
      simp only [afterBlanks?] at spaced
      split at spaced
      · next blank =>
        cases spaced
        exact ⟨c, t, rfl, blank, rfl⟩
      · cases spaced
  · intro ⟨c, more, whole, blank, same⟩
    rw [whole, same]
    simp [afterBlanks?, blank]

/-- A text between brackets is read whatever it holds, since the brackets are looked for at the ends. -/
theorem bracketed?_spelled {mark : Char} {before gap : Text} (first : ∀ c ∈ before, isBlank c = true) (blank : ∀ c ∈ gap, isBlank c = true) (t : Text) :
    bracketed? mark (before ++ '(' :: t ++ ')' :: gap ++ [mark]) = some t := by
  have opening : isBlank '(' = false := rfl
  have closing : isBlank ')' = false := rfl
  have opens : (before ++ '(' :: t ++ ')' :: gap ++ [mark]).trimLeft = ['('] ++ (t ++ ')' :: gap ++ [mark]) := by
    rw [List.append_assoc, List.append_assoc, trimLeft_append_blanks first, List.cons_append, trimLeft_ink opening]
    simp
  have closes : trimRight (t ++ ')' :: gap) = t ++ [')'] := by
    rw [← List.singleton_append, ← List.append_assoc, trimRight_append_blanks blank, trimRight_append_ink closing]
  rw [bracketed?, after?_eq_some_iff.mpr opens]
  dsimp only
  rw [beforeLast?_eq_some_iff.mpr rfl]
  dsimp only
  rw [closes, beforeLast?_eq_some_iff.mpr rfl]

/-- The brackets at the ends of a text decide what is read, whatever stands between them. -/
theorem bracketed?_eq_some_iff {mark : Char} {t inner : Text} : t.bracketed? mark = some inner ↔
    ∃ before after, (∀ c ∈ before, isBlank c = true) ∧ (∀ c ∈ after, isBlank c = true) ∧
      t = before ++ '(' :: inner ++ ')' :: after ++ [mark] := by
  constructor
  · intro found
    unfold bracketed? at found
    split at found
    · cases found
    · next rest opening =>
      split at found
      · cases found
      · next closed marked =>
        obtain ⟨after, whole, blank⟩ := exists_of_trimRight closed
        obtain ⟨before, spaced, first⟩ := exists_of_trimLeft t
        refine ⟨before, after, first, blank, ?_⟩
        rw [spaced, after?_eq_some_iff.mp opening, beforeLast?_eq_some_iff.mp marked, whole,
          beforeLast?_eq_some_iff.mp found]
        simp
  · rintro ⟨before, after, first, blank, rfl⟩
    exact bracketed?_spelled first blank inner

/-- Blanks end a word, whichever characters its words may have. -/
theorem startsWord_of_afterBlanks? {t rest : Text} (spaced : t.afterBlanks? = some rest) :
    t.startsWord = false := by
  obtain ⟨c, more, rfl, blank, -⟩ := afterBlanks?_eq_some_iff.mp spaced
  exact isWordChar_of_isBlank blank

end Linewise.Text
