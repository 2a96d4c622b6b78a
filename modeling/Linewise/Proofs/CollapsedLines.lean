import Linewise.Proofs.SqueezedStatements

/-! What a line says is said by its words, not by the blanks between them. With one space
between any two words it is read as before: it is of the same kind, and what is taken out of it has
the same words. -/

namespace Linewise
open Text

namespace Text

variable {c d : Char} {t word : Text}

def words (t : Text) : List Text :=
  (t.splitOnP isBlank).filter (!·.isEmpty)

theorem ne_nil_of_mem_words (member : word ∈ t.words) : word ≠ [] := by
  simpa using (List.mem_filter.mp member).2

theorem words_blank (blank : isBlank c = true) (t : Text) : words (c :: t) = words t := by
  rw [words, List.splitOnP_cons_eq_if_modifyHead, if_pos blank]
  rfl

/-- The first character starts the first word. -/
theorem exists_words_ink (ink : isBlank c = false) (t : Text) : ∃ word others, words (c :: t) = (c :: word) :: others := by
  obtain ⟨word, others, cut⟩ := List.exists_cons_of_ne_nil (List.splitOnP_ne_nil isBlank t)
  refine ⟨word, others.filter (!·.isEmpty), ?_⟩
  rw [words, List.splitOnP_cons_eq_if_modifyHead, if_neg (by simp [ink]), cut]
  rfl

theorem words_ink_blank (ink : isBlank c = false) (blank : isBlank d = true) (t : Text) :
    words (c :: d :: t) = [c] :: words t := by
  rw [words, List.splitOnP_cons_eq_if_modifyHead, List.splitOnP_cons_eq_if_modifyHead, if_neg (by simp [ink]),
    if_pos blank]
  rfl

theorem words_ink_ink (ink : isBlank c = false) (next : isBlank d = false) (t : Text) :
    words (c :: d :: t) = (words (d :: t)).modifyHead (c :: ·) := by
  obtain ⟨word, others, cut⟩ := List.exists_cons_of_ne_nil (List.splitOnP_ne_nil isBlank t)
  rw [words, words, List.splitOnP_cons_eq_if_modifyHead, List.splitOnP_cons_eq_if_modifyHead, if_neg (by simp [ink]),
    if_neg (by simp [next]), cut]
  rfl

theorem collapse_blank (blank : isBlank c = true) (t : Text) : collapse (c :: t) = collapse t := by
  rw [collapse, collapse, trim, trim, trimLeft_blank blank]

theorem collapse_ink (ink : isBlank c = false) (t : Text) : collapse (c :: t) = c :: t.trimRight.squeeze := by
  rw [collapse, trim, trimLeft_ink ink, trimRight_ink ink, squeeze_ink ink]

theorem collapse_ink_ink (ink : isBlank c = false) (next : isBlank d = false) (t : Text) :
    collapse (c :: d :: t) = c :: collapse (d :: t) := by
  rw [collapse_ink ink, collapse_ink next, trimRight_ink next, squeeze_ink next]

/-- Blanks behind a word are left out at the end, and else they are one space. -/
theorem collapse_ink_blank (ink : isBlank c = false) (blank : isBlank d = true) (t : Text) :
    collapse (c :: d :: t) = c :: if t.collapse = [] then [] else ' ' :: t.collapse := by
  have rest : t.collapse = t.trimRight.trimLeft.squeeze := by rw [collapse, trim, trimRight_trimLeft]
  rw [collapse_ink ink, trimRight_cons, rest]
  simp only [squeeze_eq_nil_iff, trimLeft_trimRight_eq_nil_iff, blank, and_true]
  split
  · rfl
  · rw [squeeze_blank blank]

private theorem intercalate_ink_blank (c : Char) {others : List Text} (shown : ∀ word ∈ others, word ≠ []) :
    [' '].intercalate ([c] :: others) =
      c :: if [' '].intercalate others = [] then [] else ' ' :: [' '].intercalate others := by
  cases others with
  | nil => rfl
  | cons word others =>
    have some? : [' '].intercalate (word :: others) ≠ [] := by
      cases others <;> simp [List.intercalate_cons_cons, shown word List.mem_cons_self]
    rw [if_neg some?, List.intercalate_cons_cons]
    rfl

private theorem intercalate_ink_ink (c : Char) (word : Text) (others : List Text) :
    [' '].intercalate ((c :: word) :: others) = c :: [' '].intercalate (word :: others) := by
  cases others with
  | nil => rfl
  | cons next others => rw [List.intercalate_cons_cons, List.intercalate_cons_cons, List.cons_append, List.cons_append]

/-- A text is collapsed to its words with a space between any two of them. -/
theorem collapse_eq_intercalate_words (t : Text) : t.collapse = [' '].intercalate t.words := by
  induction t with
  | nil => rfl
  | cons c t ih =>
    cases blank : isBlank c with
    | true => rw [collapse_blank blank, words_blank blank, ih]
    | false =>
      cases t with
      | nil =>
        rw [collapse_ink blank, words, List.splitOnP_cons_eq_if_modifyHead, if_neg (by simp [blank])]
        rfl
      | cons d t =>
        cases next : isBlank d with
        | true =>
          rw [collapse_blank next, words_blank next] at ih
          rw [collapse_ink_blank blank next, words_ink_blank blank next, ih]
          exact (intercalate_ink_blank c fun word => ne_nil_of_mem_words).symm
        | false =>
          obtain ⟨word, others, started⟩ := exists_words_ink next t
          rw [collapse_ink_ink blank next, words_ink_ink blank next, ih, started]
          exact (intercalate_ink_ink c (d :: word) others).symm

theorem collapse_squeeze (t : Text) : t.squeeze.collapse = t.collapse := by
  rw [collapse, collapse, trim_squeeze, squeeze_squeeze]

end Text

namespace CollapsedLines
open Statement

private theorem of_squeeze (statement : Statement) : Kind.of statement.squeeze = Kind.of statement := by
  cases statement <;> rfl

private theorem kind_of_squeezed (line : Text) : (ofLine line.collapse).map Kind.of = (ofLine line).map Kind.of := by
  rw [ofLine_collapse, Option.map_map]
  exact congrArg (fun read => (ofLine line).map read) (funext of_squeeze)

/-- A line with its words one space apart is of the same kind, and so is every line with the same words.
The names in it are the same, and the texts that are taken out of it are the same when their own
words are one space apart. -/
theorem kind_of_collapse (line : Text) :
    line.collapse = [' '].intercalate line.words ∧
      (ofLine line.collapse).map Kind.of = (ofLine line).map Kind.of ∧
      (∀ other : Text, other.words = line.words → (ofLine other).map Kind.of = (ofLine line).map Kind.of) ∧
      Option.Rel (fun head other => head.1 = other.1 ∧ head.2.collapse = other.2.collapse)
        (methodHead? line.collapse) (methodHead? line) ∧
      Option.Rel (fun called other => called.1 = other.1 ∧ called.2.collapse = other.2.collapse)
        (call? line.collapse) (call? line) ∧
      Option.Rel (fun condition other => condition.collapse = other.collapse)
        (blockHead? line.collapse) (blockHead? line) := by
  refine ⟨collapse_eq_intercalate_words line, kind_of_squeezed line, ?_, ?_, ?_, ?_⟩
  · intro other same
    have collapsed : other.collapse = line.collapse := by
      rw [collapse_eq_intercalate_words, same, ← collapse_eq_intercalate_words]
    rw [← kind_of_squeezed other, collapsed, kind_of_squeezed line]
  · rw [collapse, methodHead?_squeeze, methodHead?_trim]
    cases methodHead? line with
    | none => exact .none
    | some head => exact .some ⟨rfl, collapse_squeeze head.2⟩
  · rw [collapse, call?_squeeze, call?, trim_trim, ← call?]
    cases call? line with
    | none => exact .none
    | some called => exact .some ⟨rfl, collapse_squeeze called.2⟩
  · rw [collapse, blockHead?_squeeze, blockHead?, trim_trim, ← blockHead?]
    cases blockHead? line with
    | none => exact .none
    | some condition => exact .some (collapse_squeeze condition)

end CollapsedLines
end Linewise
