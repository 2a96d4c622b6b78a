import Linewise.Proofs.LineWords
import Linewise.Proofs.TextSqueeze

/-! Cutting a squeezed text gives the squeezed pieces. No text is cut at blanks, so a blank stays
with what follows it in its piece, and a run of them stays together. -/

namespace Linewise.Text

variable {c : Char} {t : Text}

/-- A way to cut a text that takes no notice of blanks. -/
structure IsCutter (cut : Text → List Text) : Prop where
  nil : cut [] = [[]]
  blank : ∀ c t, isBlank c = true → cut (c :: t) = (cut t).modifyHead (c :: ·)
  ink : ∀ c t, isBlank c = false → (cut (c :: t)).modifyHead trimLeft = cut (c :: t)

namespace IsCutter

variable {cut : Text → List Text}

theorem trimLeft (cutter : IsCutter cut) (t : Text) : cut t.trimLeft = (cut t).modifyHead Text.trimLeft := by
  induction t with
  | nil =>
    change cut [] = _
    rw [cutter.nil]
    rfl
  | cons c t ih =>
    cases blank : isBlank c with
    | false => rw [trimLeft_ink blank, cutter.ink c t blank]
    | true =>
      rw [trimLeft_blank blank, ih, cutter.blank c t blank]
      cases cut t with
      | nil => rfl
      | cons piece others => simp [trimLeft_blank blank]

/-- Where the rest of a text is cut as its squeezed rest, a blank in front does not change that. -/
theorem squeeze_blank (cutter : IsCutter cut) {c : Char} {t : Text} (blank : isBlank c = true)
    (same : cut t.squeeze = (cut t).map squeeze) : cut (squeeze (c :: t)) = (cut (c :: t)).map squeeze := by
  rw [Text.squeeze_blank blank, cutter.blank ' ' _ isBlank_space, ← trimLeft_squeeze, cutter.trimLeft, same,
    cutter.blank c t blank]
  cases cut t with
  | nil => rfl
  | cons piece others => simp [trimLeft_squeeze, Text.squeeze_blank blank]

end IsCutter

theorem isBlank_of_isQuote (quoted : isQuote c = true) : isBlank c = false := by
  simp only [isQuote, Bool.or_eq_true, beq_iff_eq] at quoted
  rcases quoted with rfl | rfl <;> rfl

def QuotesInk (opened : Option Char) : Prop :=
  ∀ quote, opened = some quote → isBlank quote = false

theorem quotesInk_none : QuotesInk none :=
  nofun

theorem quoteAfter_blank {opened : Option Char} (shown : QuotesInk opened)
    (blank : isBlank c = true) : quoteAfter opened c = opened := by
  cases opened with
  | none =>
    rw [quoteAfter, if_neg]
    intro quoted
    rw [isBlank_of_isQuote quoted] at blank
    cases blank
  | some quote =>
    rw [quoteAfter, if_neg]
    rintro rfl
    rw [shown c rfl] at blank
    cases blank

theorem quotesInk_quoteAfter {opened : Option Char} (shown : QuotesInk opened)
    (c : Char) : QuotesInk (quoteAfter opened c) := by
  intro quote opens
  cases opened with
  | none =>
    rw [quoteAfter] at opens
    split at opens
    · next quoted =>
      cases opens
      exact isBlank_of_isQuote quoted
    · cases opens
  | some before =>
    rw [quoteAfter] at opens
    split at opens
    · cases opens
    · cases opens
      exact shown _ rfl

private theorem splitFrom_cons (mark : Char) (opened : Option Char) (c : Char) (t : Text) :
    splitFrom mark opened (c :: t) =
      if separates mark opened c then [] :: splitFrom mark (quoteAfter opened c) t
      else (splitFrom mark (quoteAfter opened c) t).modifyHead (c :: ·) := by
  rw [splitFrom]
  obtain ⟨piece, others, pieces⟩ := List.exists_cons_of_ne_nil (splitFrom_ne_nil mark (quoteAfter opened c) t)
  rw [pieces]
  rfl

theorem isCutter_splitFrom {mark : Char} (ink : isBlank mark = false) {opened : Option Char}
    (shown : QuotesInk opened) : IsCutter (splitFrom mark opened) where
  nil := rfl
  blank c t blank := by
    have through : separates mark opened c = false := by
      rw [← Bool.not_eq_true]
      intro separated
      simp only [separates, Bool.and_eq_true, beq_iff_eq] at separated
      rw [separated.2, ink] at blank
      cases blank
    rw [splitFrom_cons, through, quoteAfter_blank shown blank]
    rfl
  ink c t ink := by
    rw [splitFrom_cons]
    split
    · rfl
    · obtain ⟨piece, others, pieces⟩ := List.exists_cons_of_ne_nil (splitFrom_ne_nil mark (quoteAfter opened c) t)
      simp [pieces, trimLeft_ink ink]

theorem splitFrom_squeeze {mark : Char} (ink : isBlank mark = false) {opened : Option Char}
    (shown : QuotesInk opened) (t : Text) :
    splitFrom mark opened t.squeeze = (splitFrom mark opened t).map squeeze := by
  induction t generalizing opened with
  | nil => rfl
  | cons c t ih =>
    cases blank : isBlank c with
    | true => exact (isCutter_splitFrom ink shown).squeeze_blank blank (ih shown)
    | false =>
      rw [squeeze_ink blank, splitFrom_cons, splitFrom_cons, ih (quotesInk_quoteAfter shown c)]
      split
      · rfl
      · cases splitFrom mark (quoteAfter opened c) t with
        | nil => rfl
        | cons piece others => simp [squeeze_ink blank]

theorem splitOutside_squeeze {mark : Char} (ink : isBlank mark = false) (t : Text) :
    t.squeeze.splitOutside mark = (t.splitOutside mark).map squeeze :=
  splitFrom_squeeze ink quotesInk_none t

theorem splitOn_squeeze {mark : Char} (ink : isBlank mark = false) (t : Text) :
    t.squeeze.splitOn mark = (t.splitOn mark).map squeeze := by
  have unlike (c : Char) (blank : isBlank c = true) : (c == mark) = false := by
    rw [beq_eq_false_iff_ne]
    rintro rfl
    rw [ink] at blank
    cases blank
  have split (c : Char) (t : Text) : List.splitOn mark (c :: t) =
      if c == mark then [] :: List.splitOn mark t else (List.splitOn mark t).modifyHead (c :: ·) :=
    List.splitOnP_cons_eq_if_modifyHead c t
  have cutter : IsCutter (List.splitOn mark) := by
    refine ⟨List.splitOn_nil mark, ?_, ?_⟩
    · intro c t blank
      rw [split, unlike c blank]
      rfl
    · intro c t ink
      rw [split]
      split
      · rfl
      · cases List.splitOn mark t with
        | nil => rfl
        | cons piece others => simp [trimLeft_ink ink]
  induction t with
  | nil => simp [squeeze, List.splitOn_nil]
  | cons c t ih =>
    cases blank : isBlank c with
    | true => exact cutter.squeeze_blank blank ih
    | false =>
      rw [squeeze_ink blank, split, split, ih]
      split
      · rfl
      · cases List.splitOn mark t with
        | nil => rfl
        | cons piece others => simp [squeeze_ink blank]

private theorem isOperator_blank {c d : Char} (blank : isBlank c = true ∨ isBlank d = true) :
    Check.isOperator c d = false := by
  rw [← Bool.not_eq_true]
  intro operator
  simp only [Check.isOperator, Bool.or_eq_true, Bool.and_eq_true, beq_iff_eq] at operator
  rcases operator with ⟨rfl, rfl⟩ | ⟨rfl, rfl⟩ <;> rcases blank with blank | blank <;> cases blank

theorem atoms_cons_of_single {c d : Char} (single : Check.isOperator c d = false) (t : Text) :
    Check.atoms (c :: d :: t) = (Check.atoms (d :: t)).modifyHead (c :: ·) := by
  obtain ⟨atom, others, pieces⟩ := List.exists_cons_of_ne_nil (cuts_atoms (d :: t)).ne_nil
  rw [Check.atoms, if_neg (by simp [single]), pieces]
  rfl

theorem isCutter_atoms : IsCutter Check.atoms where
  nil := rfl
  blank c t blank := by
    cases t with
    | nil => rfl
    | cons d t => exact atoms_cons_of_single (isOperator_blank (Or.inl blank)) t
  ink c t ink := by
    cases t with
    | nil => simp [Check.atoms, trimLeft_ink ink]
    | cons d t =>
      cases operator : Check.isOperator c d with
      | true =>
        rw [Check.atoms, if_pos operator]
        rfl
      | false =>
        rw [atoms_cons_of_single operator]
        cases Check.atoms (d :: t) with
        | nil => rfl
        | cons piece others => simp [trimLeft_ink ink]

private theorem atoms_squeeze_of_single {c d : Char} {t : Text} (single : Check.isOperator c d = false)
    (same : Check.atoms (squeeze (d :: t)) = (Check.atoms (d :: t)).map squeeze) :
    Check.atoms (squeeze (c :: d :: t)) = (Check.atoms (c :: d :: t)).map squeeze := by
  cases blank : isBlank c with
  | true => exact isCutter_atoms.squeeze_blank blank same
  | false =>
    obtain ⟨e, rest, spaced, apart⟩ : ∃ e rest, squeeze (d :: t) = e :: rest ∧ Check.isOperator c e = false := by
      cases gap : isBlank d with
      | true => exact ⟨' ', _, squeeze_blank gap t, isOperator_blank (Or.inr isBlank_space)⟩
      | false => exact ⟨d, _, squeeze_ink gap t, single⟩
    rw [squeeze_ink blank, spaced, atoms_cons_of_single apart, ← spaced, same, atoms_cons_of_single single]
    cases Check.atoms (d :: t) with
    | nil => rfl
    | cons piece others => simp [squeeze_ink blank]

theorem atoms_squeeze (t : Text) : Check.atoms t.squeeze = (Check.atoms t).map squeeze := by
  induction t using Check.atoms.induct with
  | case1 => rfl
  | case2 c =>
    cases blank : isBlank c with
    | true => exact isCutter_atoms.squeeze_blank blank rfl
    | false => rw [squeeze_ink blank, Check.atoms, List.map_singleton, squeeze_ink blank]; rfl
  | case3 c d rest operator ih =>
    have ink (e : Char) (either : e = c ∨ e = d) : isBlank e = false := by
      rw [← Bool.not_eq_true]
      intro blank
      rcases either with rfl | rfl
      · rw [isOperator_blank (Or.inl blank)] at operator
        cases operator
      · rw [isOperator_blank (Or.inr blank)] at operator
        cases operator
    rw [squeeze_ink (ink c (Or.inl rfl)), squeeze_ink (ink d (Or.inr rfl)), Check.atoms, if_pos operator, ih,
      Check.atoms, if_pos operator]
    rfl
  | case4 c d rest single none ih => exact absurd none (cuts_atoms (d :: rest)).ne_nil
  | case5 c d rest single atom others pieces ih =>
    exact atoms_squeeze_of_single (by simpa using single) ih

end Linewise.Text
