import Linewise.Proofs.SpelledParts

/-! Where a text is cut. A mark cuts exactly where all quotes in front of it are closed, so nothing but the
marks that cut is lost, and a piece has none of them left. -/

namespace Linewise.Text

/-- Every quote that opens in a text is closed in it. What is quoted may hold the other kind of quote. -/
inductive Closed : Text → Prop where
  | nil : Closed []
  | plain {c rest} (free : isQuote c = false) (closed : Closed rest) : Closed (c :: rest)
  | quoted {quote inner rest} (quotes : isQuote quote = true) (inside : quote ∉ inner) (closed : Closed rest) :
    Closed (quote :: inner ++ quote :: rest)

def CutAt (mark : Char) (pieces : List Text) (before after : Text) : Prop :=
  ∃ front behind, front ≠ [] ∧ behind ≠ [] ∧ pieces = front ++ behind ∧
    [mark].intercalate front = before ∧ [mark].intercalate behind = after

variable {mark : Char} {opened : Option Char} {t before after : Text}

theorem foldl_quoteAfter_of_quoted {quote : Char} {inner : Text} (quotes : isQuote quote = true) (inside : quote ∉ inner)
    (rest : Text) : (quote :: inner ++ quote :: rest).foldl quoteAfter none = rest.foldl quoteAfter none := by
  have opens : quoteAfter none quote = some quote := if_pos quotes
  have closes : quoteAfter (some quote) quote = none := if_pos rfl
  rw [List.cons_append, List.foldl_cons, opens, List.foldl_append, foldl_quoteAfter_of_unclosed inside, List.foldl_cons,
    closes]

/-- A scan from the left has no quote open behind a text exactly where the text closes its quotes. -/
theorem closed_iff : Closed t ↔ t.foldl quoteAfter none = none := by
  constructor
  · intro closed
    induction closed with
    | nil => rfl
    | plain free _ ih => rwa [List.foldl_cons, quoteAfter_of_plain free]
    | quoted quotes inside _ ih => rwa [foldl_quoteAfter_of_quoted quotes inside]
  · intro scanned
    induction whole : t.length using Nat.strongRecOn generalizing t with
    | ind size ih =>
      cases t with
      | nil => exact .nil
      | cons c t =>
        cases quotes : isQuote c with
        | false =>
          rw [List.foldl_cons, quoteAfter_of_plain quotes] at scanned
          exact .plain quotes (ih t.length (by simp [← whole]) scanned rfl)
        | true =>
          have member : c ∈ t := by
            apply Decidable.byContradiction
            intro unclosed
            have opens : quoteAfter none c = some c := if_pos quotes
            rw [List.foldl_cons, opens, foldl_quoteAfter_of_unclosed unclosed] at scanned
            cases scanned
          obtain ⟨inner, rest, rfl, inside⟩ := List.eq_append_cons_of_mem member
          rw [← List.cons_append, foldl_quoteAfter_of_quoted quotes inside] at scanned
          exact .quoted quotes inside (ih rest.length (by simp [← whole]; omega) scanned rfl)

/-- A text is cut for the first time at a mark in front of which no quote is open, and then what is behind the
mark is cut. -/
theorem exists_of_splitFrom_cons_cons {piece next : Text} {others : List Text}
    (cut : splitFrom mark opened t = piece :: next :: others) :
    ∃ rest, t = piece ++ mark :: rest ∧ piece.foldl quoteAfter opened = none ∧ splitOutside mark rest = next :: others := by
  induction t generalizing opened piece with
  | nil => cases cut
  | cons c t ih =>
    obtain ⟨first, rest, cutting⟩ := List.exists_cons_of_ne_nil (splitFrom_ne_nil mark (quoteAfter opened c) t)
    rw [splitFrom, cutting] at cut
    cases separated : separates mark opened c with
    | true =>
      rw [separated] at cut
      cases cut
      obtain ⟨rfl, free, rfl⟩ := separates_eq_true_iff.mp separated
      rw [quoteAfter_of_plain free] at cutting
      exact ⟨t, rfl, rfl, cutting⟩
    | false =>
      rw [separated] at cut
      cases cut
      obtain ⟨rest, rfl, scanned, left⟩ := ih cutting
      exact ⟨rest, rfl, scanned, left⟩

theorem marksFrom_of_isQuote (quotes : isQuote mark = true) (opened : Option Char) (t : Text) :
    t.marksFrom mark opened = 0 := by
  induction t generalizing opened with
  | nil => rfl
  | cons c t ih =>
    have through : separates mark opened c = false := by
      rw [← Bool.not_eq_true, separates_eq_true_iff]
      rintro ⟨-, free, rfl⟩
      rw [quotes] at free
      cases free
    rw [marksFrom, through, ih]
    rfl

/-- A piece ends where no quote is open, unless it is the last. -/
theorem closed_of_mem_dropLast {piece : Text} (member : piece ∈ (t.splitOutside mark).dropLast) : piece.Closed := by
  generalize cut : t.splitOutside mark = pieces at member
  induction pieces generalizing t with
  | nil => cases member
  | cons first pieces ih =>
    cases pieces with
    | nil => cases member
    | cons next others =>
      obtain ⟨rest, -, scanned, left⟩ := exists_of_splitFrom_cons_cons cut
      rcases List.mem_cons.mp member with rfl | later
      · exact closed_iff.mpr scanned
      · exact ih left later

theorem splitOutside_append_cons (free : isQuote mark = false) (closed : before.Closed) (after : Text) :
    splitOutside mark (before ++ mark :: after) = splitOutside mark before ++ splitOutside mark after :=
  splitFrom_append_cons free (closed_iff.mp closed) after

/-- A text is cut wherever the mark stands with all quotes in front of it closed, and nowhere else. -/
theorem cutAt_splitOutside_iff (free : isQuote mark = false) :
    CutAt mark (t.splitOutside mark) before after ↔ t = before ++ mark :: after ∧ before.Closed := by
  constructor
  · rintro ⟨front, behind, some, others, cut, rfl, rfl⟩
    induction front generalizing t with
    | nil => exact absurd rfl some
    | cons piece front ih =>
      obtain ⟨next, rest, more⟩ := List.exists_cons_of_ne_nil (List.append_ne_nil_of_right_ne_nil front others)
      rw [List.cons_append, more] at cut
      obtain ⟨left, rfl, scanned, cutting⟩ := exists_of_splitFrom_cons_cons cut
      rw [← more] at cutting
      cases front with
      | nil =>
        rw [List.nil_append] at cutting
        rw [List.intercalate_singleton, ← cutting, splitOutside, intercalate_splitFrom]
        exact ⟨rfl, closed_iff.mpr scanned⟩
      | cons second front =>
        have joined : [mark].intercalate (piece :: second :: front) =
            piece ++ mark :: [mark].intercalate (second :: front) := by
          rw [List.intercalate_cons_cons, List.append_assoc, List.singleton_append]
        obtain ⟨rfl, closed⟩ := ih (List.cons_ne_nil second front) cutting
        rw [joined, List.append_assoc, List.cons_append, closed_iff, List.foldl_append, scanned, List.foldl_cons,
          quoteAfter_of_plain free]
        exact ⟨rfl, closed_iff.mp closed⟩
  · rintro ⟨rfl, closed⟩
    exact ⟨splitOutside mark before, splitOutside mark after, splitFrom_ne_nil mark none before,
      splitFrom_ne_nil mark none after, splitOutside_append_cons free closed after, intercalate_splitFrom mark none before,
      intercalate_splitFrom mark none after⟩

/-- A piece that is cut again stays whole, so no mark in it has all quotes in front of it closed. -/
theorem not_closed_of_mem {piece : Text} (free : isQuote mark = false) (member : piece ∈ t.splitOutside mark)
    (whole : piece = before ++ mark :: after) : ¬ before.Closed := by
  intro closed
  have cut := splitOutside_append_cons free closed after
  rw [← whole, splitOutside_of_mem member] at cut
  have lengths := congrArg List.length cut
  have first := List.length_pos_iff.mpr (splitFrom_ne_nil mark none before)
  have last := List.length_pos_iff.mpr (splitFrom_ne_nil mark none after)
  rw [List.length_singleton, List.length_append, splitOutside, splitOutside] at lengths
  omega

/-- The pieces of a text are what stands between those of its marks that have all quotes in front of them
closed. A quote that is a mark cuts nowhere. Two texts are cut apart from each other at a mark between them if
the first closes its quotes, and a piece is cut no further. -/
theorem cuts_are_exact (mark : Char) (t : Text) :
    [mark].intercalate (t.splitOutside mark) = t ∧
    (isQuote mark = true → t.splitOutside mark = [t]) ∧
    (isQuote mark = false →
      (∀ before after, CutAt mark (t.splitOutside mark) before after ↔ t = before ++ mark :: after ∧ before.Closed) ∧
      (∀ piece ∈ (t.splitOutside mark).dropLast, piece.Closed) ∧
      (∀ piece ∈ t.splitOutside mark, ∀ before after, piece = before ++ mark :: after → ¬ before.Closed) ∧
      (t.Closed → ∀ rest, splitOutside mark (t ++ mark :: rest) = t.splitOutside mark ++ splitOutside mark rest)) ∧
    ∀ piece ∈ t.splitOutside mark, piece.splitOutside mark = [piece] := by
  refine ⟨intercalate_splitFrom mark none t, fun quotes => ?_, fun free => ⟨?_, ?_, ?_, ?_⟩, ?_⟩
  · exact splitFrom_of_marksFrom (marksFrom_of_isQuote quotes none t)
  · exact fun before after => cutAt_splitOutside_iff free
  · exact fun piece member => closed_of_mem_dropLast member
  · exact fun piece member before after whole => not_closed_of_mem free member whole
  · exact fun closed rest => splitOutside_append_cons free closed rest
  · exact fun piece member => splitOutside_of_mem member

/-- The quoted comma and the other kind of quote beside it cut nothing. -/
def quotedComma : Text :=
  "a = \",'\"".toList

def unclosedComma : Text :=
  " b = ',".toList

theorem quotedComma_is_cut_exactly :
    isQuote ',' = false ∧ quotedComma.Closed ∧
      splitOutside ',' (quotedComma ++ ',' :: unclosedComma) = [quotedComma, unclosedComma] ∧
      CutAt ',' [quotedComma, unclosedComma] quotedComma unclosedComma := by
  have free : isQuote ',' = false := rfl
  have closed : quotedComma.Closed := closed_iff.mpr (by decide)
  obtain ⟨-, -, first, -⟩ := cuts_are_exact ',' quotedComma
  have pieces := (first free).2.2.2 closed unclosedComma
  have both : splitOutside ',' (quotedComma ++ ',' :: unclosedComma) = [quotedComma, unclosedComma] :=
    pieces.trans (by decide)
  obtain ⟨-, -, whole, -⟩ := cuts_are_exact ',' (quotedComma ++ ',' :: unclosedComma)
  have cut := ((whole free).1 quotedComma unclosedComma).mpr ⟨rfl, closed⟩
  rw [both] at cut
  exact ⟨free, closed, both, cut⟩

end Linewise.Text
