import Linewise.Proofs.ArgumentCount
import Linewise.Proofs.TextTrim

/-! Which quote is open somewhere in a text depends on all that stands before. A text may be
scanned part by part where no part leaves a quote open, and then its marks are those of its parts. -/

namespace Linewise.Text

/-- The text leaves no quote open, and has no such mark where none is. -/
def Seals (mark : Char) (opened : Option Char) (t : Text) : Prop :=
  t.foldl quoteAfter opened = none ∧ t.marksFrom mark opened = 0

def IsPlain (mark c : Char) : Prop :=
  isQuote c = false ∧ c ≠ mark

inductive FilledWith (mark : Char) : List Text → Text → Prop where
  | nil : FilledWith mark [] []
  | plain {c parts rest} (free : IsPlain mark c) (filled : FilledWith mark parts rest) :
    FilledWith mark parts (c :: rest)
  | part {part parts rest} (filled : FilledWith mark parts rest) : FilledWith mark (part :: parts) (part ++ rest)

instance (mark : Char) (opened : Option Char) (t : Text) : Decidable (t.Seals mark opened) :=
  inferInstanceAs (Decidable (_ ∧ _))

instance (mark c : Char) : Decidable (IsPlain mark c) :=
  inferInstanceAs (Decidable (_ ∧ _))

variable {mark cut c : Char} {opened : Option Char} {t rest plain : Text}

theorem seals_nil : Seals mark opened [] ↔ opened = none := by
  simp [Seals, marksFrom]

theorem seals_cons :
    Seals mark opened (c :: rest) ↔ separates mark opened c = false ∧ Seals mark (quoteAfter opened c) rest := by
  cases separated : separates mark opened c <;> simp [Seals, marksFrom, separated]

theorem separates_eq_true_iff : separates mark opened c = true ↔ opened = none ∧ isQuote c = false ∧ c = mark := by
  simp [separates, and_assoc]

theorem quoteAfter_of_plain (free : isQuote c = false) : quoteAfter none c = none := by
  rw [quoteAfter, free]
  rfl

theorem seals_cons_of_plain (free : IsPlain mark c) : Seals mark none (c :: rest) ↔ Seals mark none rest := by
  rw [seals_cons, quoteAfter_of_plain free.1]
  simp [separates, free.2]

/-- What stands in front of a text and is plain does not matter. -/
theorem seals_append_of_plain (free : ∀ c ∈ plain, IsPlain mark c) :
    Seals mark none (plain ++ rest) ↔ Seals mark none rest := by
  induction plain with
  | nil => exact Iff.rfl
  | cons c plain ih =>
    rw [List.cons_append, seals_cons_of_plain (free c (by simp))]
    exact ih fun d member => free d (by simp [member])

theorem seals_of_plain (free : ∀ c ∈ plain, IsPlain mark c) : Seals mark none plain := by
  rw [← List.append_nil plain, seals_append_of_plain free]
  exact seals_nil.mpr rfl

/-- A quote that is open stays open where it does not stand again. -/
theorem foldl_quoteAfter_of_unclosed {quote : Char} (unclosed : quote ∉ t) :
    t.foldl quoteAfter (some quote) = some quote := by
  induction t with
  | nil => rfl
  | cons c t ih =>
    simp only [List.mem_cons, not_or] at unclosed
    rw [List.foldl_cons, quoteAfter, if_neg (Ne.symm unclosed.1)]
    exact ih unclosed.2

theorem isQuote_of_foldl {quote : Char} (opens : ∀ other, opened = some other → isQuote other = true)
    (scanned : t.foldl quoteAfter opened = some quote) : isQuote quote = true := by
  induction t generalizing opened with
  | nil => exact opens quote scanned
  | cons c t ih =>
    refine ih ?_ scanned
    intro other opening
    cases opened with
    | none =>
      rw [quoteAfter] at opening
      split at opening <;> cases opening
      assumption
    | some before =>
      rw [quoteAfter] at opening
      split at opening <;> cases opening
      exact opens _ rfl

theorem seals_append : Seals mark opened (t ++ rest) ↔
    t.marksFrom mark opened = 0 ∧ Seals mark (t.foldl quoteAfter opened) rest := by
  induction t generalizing opened with
  | nil => simp [marksFrom]
  | cons c t ih =>
    rw [List.cons_append, seals_cons, ih, List.foldl_cons]
    cases separated : separates mark opened c <;> simp [marksFrom, separated]

/-- What stands behind a text and is plain does not matter either, since it closes no quote. -/
theorem seals_append_plain (free : ∀ c ∈ plain, IsPlain mark c) : Seals mark none (t ++ plain) ↔ Seals mark none t := by
  rw [seals_append]
  cases scanned : t.foldl quoteAfter none with
  | none =>
    constructor
    · intro ⟨unmarked, _⟩
      exact ⟨scanned, unmarked⟩
    · intro ⟨_, unmarked⟩
      exact ⟨unmarked, seals_of_plain free⟩
  | some quote =>
    have fresh : ∀ other, none = some other → isQuote other = true := nofun
    have quoted := isQuote_of_foldl fresh scanned
    have unclosed : quote ∉ plain := by
      intro member
      rw [(free quote member).1] at quoted
      cases quoted
    constructor
    · intro ⟨_, closed, _⟩
      rw [foldl_quoteAfter_of_unclosed unclosed] at closed
      cases closed
    · intro ⟨closed, _⟩
      rw [scanned] at closed
      cases closed

/-- A text is sealed where the pieces that it is cut into are, if the cuts themselves are plain. -/
theorem seals_iff_of_splitFrom {piece : Text} {others : List Text} (free : IsPlain mark cut)
    (pieces : splitFrom cut opened t = piece :: others) :
    Seals mark opened t ↔ Seals mark opened piece ∧ ∀ other ∈ others, Seals mark none other := by
  induction t generalizing opened piece others with
  | nil =>
    cases pieces
    simp
  | cons c t ih =>
    obtain ⟨first, rest, cutting⟩ := List.exists_cons_of_ne_nil (splitFrom_ne_nil cut (quoteAfter opened c) t)
    have goes := ih cutting
    rw [splitFrom, cutting] at pieces
    cases separated : separates cut opened c with
    | true =>
      rw [separated] at pieces
      cases pieces
      obtain ⟨rfl, -, rfl⟩ := separates_eq_true_iff.mp separated
      rw [quoteAfter_of_plain free.1] at goes
      rw [seals_cons_of_plain free, goes]
      simp [seals_nil]
    | false =>
      rw [separated] at pieces
      cases pieces
      rw [seals_cons, seals_cons, goes, and_assoc]

theorem seals_iff_of_splitOutside (free : IsPlain mark cut) :
    Seals mark none t ↔ ∀ piece ∈ t.splitOutside cut, Seals mark none piece := by
  obtain ⟨piece, others, pieces⟩ := List.exists_cons_of_ne_nil (splitFrom_ne_nil cut none t)
  rw [seals_iff_of_splitFrom free pieces, splitOutside, pieces, List.forall_mem_cons]

/-- A mark at the end is the only one exactly where the text in front of it is sealed. -/
theorem splitFrom_append_mark (free : isQuote mark = false) :
    splitFrom mark opened (t ++ [mark]) = [t, []] ↔ Seals mark opened t := by
  induction t generalizing opened with
  | nil =>
    rw [seals_nil, List.nil_append, splitFrom]
    cases opened <;> simp [separates, free, splitFrom]
  | cons c t ih =>
    rw [seals_cons, ← ih, List.cons_append, splitFrom]
    cases separated : separates mark opened c with
    | true => simp
    | false =>
      have cuts := splitFrom_ne_nil mark (quoteAfter opened c) (t ++ [mark])
      obtain ⟨first, rest, cutting⟩ := List.exists_cons_of_ne_nil cuts
      simp [cutting]

private theorem marksFrom_of_unclosed {quote : Char} (unclosed : quote ∉ t) : t.marksFrom mark (some quote) = 0 := by
  induction t with
  | nil => rfl
  | cons c t ih =>
    simp only [List.mem_cons, not_or] at unclosed
    rw [marksFrom, quoteAfter, if_neg (Ne.symm unclosed.1), ih unclosed.2]
    rfl

/-- A text between two quotes that it does not hold itself is sealed. -/
theorem seals_of_quoted {quote : Char} (quoted : isQuote quote = true) (inner : quote ∉ t) :
    Seals mark none (quote :: t ++ [quote]) := by
  have opens : quoteAfter none quote = some quote := by
    rw [quoteAfter, if_pos quoted]
  rw [List.cons_append, seals_cons, opens, seals_append, marksFrom_of_unclosed inner, foldl_quoteAfter_of_unclosed inner,
    seals_cons, seals_nil]
  simp [separates, quoted, quoteAfter]

namespace FilledWith

variable {parts others : List Text}

theorem append (first : FilledWith mark parts t) (second : FilledWith mark others rest) :
    FilledWith mark (parts ++ others) (t ++ rest) := by
  induction first with
  | nil => exact second
  | plain free _ ih => exact .plain free ih
  | part _ ih =>
    rw [List.append_assoc]
    exact .part ih

theorem of_plain (free : ∀ c ∈ plain, IsPlain mark c) : FilledWith mark [] plain := by
  induction plain with
  | nil => exact .nil
  | cons c plain ih => exact .plain (free c (by simp)) (ih fun d member => free d (by simp [member]))

theorem of_part (t : Text) : FilledWith mark [t] t := by
  have filled : FilledWith mark [t] (t ++ []) := .part .nil
  rwa [List.append_nil] at filled

/-- Parts of the pieces that a text is cut into are parts of the text. -/
theorem of_pieces {pieces : List Text} {given : Text → List Text} (free : IsPlain mark cut)
    (filled : ∀ piece ∈ pieces, FilledWith mark (given piece) piece) :
    FilledWith mark (pieces.flatMap given) ([cut].intercalate pieces) := by
  induction pieces with
  | nil => exact .nil
  | cons piece pieces ih =>
    have here := filled piece (by simp)
    have later := ih fun other member => filled other (by simp [member])
    cases pieces with
    | nil => simpa [List.intercalate] using here
    | cons next pieces =>
      have joined := here.append ((FilledWith.plain free later))
      simpa [List.intercalate, List.intersperse] using joined

end FilledWith
end Linewise.Text
