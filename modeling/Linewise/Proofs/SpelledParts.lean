import Linewise.Proofs.SqueezedStatements
import Linewise.Proofs.WrittenFronts
import Mathlib.Data.List.TakeWhile

/-! The parts of a line, each spelled out and read again. Blanks around a part are passed over, and a
row of pieces is cut where its pieces were joined. -/

namespace Linewise
open Text

namespace Text

variable {mark c last : Char} {opened : Option Char} {t rest before gap : Text} {pieces : List Text}

/-- Blanks on both sides of a text are trimmed with the blanks of its own. -/
theorem trim_between_blanks (first : ∀ c ∈ before, isBlank c = true) (blank : ∀ c ∈ gap, isBlank c = true) (t : Text) :
    trim (before ++ t ++ gap) = t.trim := by
  rw [trim, List.append_assoc, trimLeft_append_blanks first, trimRight_trimLeft, trimRight_append_blanks blank,
    ← trimRight_trimLeft, trim]

/-- A text that ends in ink is trimmed in front only. -/
theorem trim_append_ink (ink : isBlank c = false) (t : Text) : trim (t ++ [c]) = trimLeft (t ++ [c]) := by
  rw [trim, trimLeft_append_ink ink, trimRight_append_ink ink]

theorem trim_of_ends (first : isBlank c = false) (final : isBlank last = false) (t : Text) :
    trim (c :: t ++ [last]) = c :: t ++ [last] := by
  rw [trim_append_ink final, List.cons_append, trimLeft_ink first]

/-- A text is left of nothing but blanks. -/
theorem trim_eq_nil_iff : t.trim = [] ↔ ∀ c ∈ t, isBlank c = true := by
  obtain ⟨before, after, whole, first, last⟩ := exists_of_trim t
  constructor
  · intro empty
    rw [empty, List.append_nil] at whole
    rw [whole]
    exact List.forall_mem_append.mpr ⟨first, last⟩
  · intro blank
    rw [trim, trimLeft, List.dropWhile_eq_nil_iff.mpr blank]
    rfl

theorem trim_of_ink (ink : ∀ c ∈ t, isBlank c = false) : t.trim = t := by
  apply trim_eq_self
  · exact fun c head => ink c (List.mem_of_mem_head? head)
  · exact fun c last => ink c (List.mem_of_getLast? last)

theorem trim_of_name {name : Text} (raw : isRawName name = true) (ink : isBlank c = false) (t : Text) :
    trim (name ++ (t ++ [c])) = name ++ (t ++ [c]) := by
  rw [← List.append_assoc, trim_append_ink ink, List.append_assoc, trimLeft_of_name raw]

theorem startsWord_append_blanks (blank : ∀ c ∈ gap, isBlank c = true) (unword : isWordChar c = false) (t : Text) :
    startsWord (gap ++ c :: t) = false := by
  cases gap with
  | nil => exact unword
  | cons d gap => exact isWordChar_of_isBlank (blank d List.mem_cons_self)

/-- What follows the word in front of an opening bracket. -/
theorem brackets_spelled {after : Text} (left : ∀ c ∈ gap, isBlank c = true)
    (last : ∀ c ∈ after, isBlank c = true) (inner : Text) (mark : Char) :
    ∃ rest, gap ++ '(' :: inner ++ ')' :: after ++ [mark] = rest ++ [mark] ∧
      bracketed? mark (rest ++ [mark]) = some inner ∧ startsWord (rest ++ [mark]) = false := by
  refine ⟨_, rfl, bracketed?_spelled left last inner, ?_⟩
  have opens : gap ++ '(' :: inner ++ ')' :: after ++ [mark] = gap ++ '(' :: (inner ++ ')' :: after ++ [mark]) := by simp
  rw [opens]
  exact startsWord_append_blanks left rfl _

/-- Inside a piece there is no mark left that separates. -/
theorem marksFrom_of_splitFrom {piece : Text} {others : List Text} (cut : splitFrom mark opened t = piece :: others) :
    piece.marksFrom mark opened = 0 ∧ ∀ other ∈ others, other.marksFrom mark none = 0 := by
  induction t generalizing opened piece others with
  | nil =>
    cases cut
    exact ⟨rfl, nofun⟩
  | cons c t ih =>
    obtain ⟨first, rest, cutting⟩ := List.exists_cons_of_ne_nil (splitFrom_ne_nil mark (quoteAfter opened c) t)
    obtain ⟨here, later⟩ := ih cutting
    rw [splitFrom, cutting] at cut
    cases separated : separates mark opened c with
    | true =>
      rw [separated] at cut
      cases cut
      obtain ⟨rfl, free, -⟩ := separates_eq_true_iff.mp separated
      rw [quoteAfter_of_plain free] at here
      exact ⟨rfl, List.forall_mem_cons.mpr ⟨here, later⟩⟩
    | false =>
      rw [separated] at cut
      cases cut
      refine ⟨?_, later⟩
      rw [marksFrom, separated, here]
      rfl

theorem splitFrom_of_marksFrom (unmarked : t.marksFrom mark opened = 0) : splitFrom mark opened t = [t] := by
  have counted := length_splitFrom mark opened t
  rw [unmarked, Nat.zero_add] at counted
  obtain ⟨piece, single⟩ := List.length_eq_one_iff.mp counted
  have joined := intercalate_splitFrom mark opened t
  rw [single, List.intercalate_singleton] at joined
  rw [single, joined]

/-- A piece is not cut again. -/
theorem splitOutside_of_mem {piece : Text} (member : piece ∈ t.splitOutside mark) : piece.splitOutside mark = [piece] := by
  obtain ⟨first, others, cut⟩ := List.exists_cons_of_ne_nil (splitFrom_ne_nil mark none t)
  obtain ⟨here, later⟩ := marksFrom_of_splitFrom cut
  rw [splitOutside, cut] at member
  apply splitFrom_of_marksFrom
  rcases List.mem_cons.mp member with rfl | behind
  · exact here
  · exact later piece behind

/-- A text that leaves no quote open is cut from what follows it at the next mark. -/
theorem splitFrom_append_cons (free : isQuote mark = false) (closed : t.foldl quoteAfter opened = none) (rest : Text) :
    splitFrom mark opened (t ++ mark :: rest) = splitFrom mark opened t ++ splitFrom mark none rest := by
  induction t generalizing opened with
  | nil =>
    obtain rfl : opened = none := closed
    simp [splitFrom, separates_eq_true_iff.mpr ⟨rfl, free, rfl⟩, quoteAfter_of_plain free]
  | cons c t ih =>
    have goes : splitFrom mark (quoteAfter opened c) (t ++ mark :: rest) =
        splitFrom mark (quoteAfter opened c) t ++ splitFrom mark none rest := ih closed
    rw [List.cons_append, splitFrom, splitFrom, goes]
    split
    · rfl
    · obtain ⟨piece, others, cut⟩ := List.exists_cons_of_ne_nil (splitFrom_ne_nil mark (quoteAfter opened c) t)
      rw [cut]
      rfl

/-- Sealed pieces that were joined by marks are cut apart again. -/
theorem splitOutside_intercalate (free : isQuote mark = false) (some : pieces ≠ [])
    (sealed : ∀ piece ∈ pieces, Seals mark none piece) : splitOutside mark ([mark].intercalate pieces) = pieces := by
  induction pieces with
  | nil => exact absurd rfl some
  | cons piece pieces ih =>
    obtain ⟨closed, unmarked⟩ := sealed piece (by simp)
    have alone := splitFrom_of_marksFrom unmarked
    cases pieces with
    | nil => rwa [List.intercalate_singleton]
    | cons next pieces =>
      have others := ih (List.cons_ne_nil next pieces) fun other member => sealed other (List.mem_cons_of_mem piece member)
      rw [List.intercalate_cons_cons, List.append_assoc, List.singleton_append, splitOutside,
        splitFrom_append_cons free closed, alone, ← splitOutside, others]
      rfl

private theorem marksFrom_of_not_mem (absent : mark ∉ t) : t.marksFrom mark opened = 0 := by
  induction t generalizing opened with
  | nil => rfl
  | cons c t ih =>
    rw [List.mem_cons, not_or] at absent
    have through : separates mark opened c = false := by
      rw [← Bool.not_eq_true, separates_eq_true_iff]
      exact fun separated => absent.1 separated.2.2.symm
    rw [marksFrom, through, ih absent.2]
    rfl

theorem trimRight_cons_trimRight (c : Char) (t : Text) : trimRight (c :: t.trimRight) = trimRight (c :: t) := by
  obtain ⟨blanks, whole, blank⟩ := exists_of_trimRight t
  conv => rhs; rw [whole, ← List.cons_append, trimRight_append_blanks blank]

private theorem map_trimRight_splitFrom (ink : isBlank mark = false) (blank : ∀ c ∈ gap, isBlank c = true) (t : Text)
    (opened : Option Char) : (splitFrom mark opened (t ++ gap)).map trimRight = (splitFrom mark opened t).map trimRight := by
  induction t generalizing opened with
  | nil =>
    have absent : mark ∉ gap := by
      intro member
      rw [blank mark member] at ink
      cases ink
    rw [List.nil_append, splitFrom_of_marksFrom (marksFrom_of_not_mem absent), splitFrom, List.map_singleton,
      List.map_singleton, ← List.nil_append gap, trimRight_append_blanks blank]
  | cons c t ih =>
    have goes := ih (quoteAfter opened c)
    obtain ⟨piece, others, cut⟩ := List.exists_cons_of_ne_nil (splitFrom_ne_nil mark (quoteAfter opened c) t)
    obtain ⟨first, rest, cutting⟩ := List.exists_cons_of_ne_nil (splitFrom_ne_nil mark (quoteAfter opened c) (t ++ gap))
    rw [cut, cutting, List.map_cons, List.map_cons, List.cons.injEq] at goes
    rw [List.cons_append, splitFrom, splitFrom, cut, cutting]
    split
    · simp [goes]
    · rw [List.map_cons, List.map_cons, ← trimRight_cons_trimRight, goes.1, trimRight_cons_trimRight, goes.2]

/-- Trimming a text trims pieces of it, which matters to none who trims them anyway. -/
theorem map_trim_splitOutside (ink : isBlank mark = false) (t : Text) :
    (splitOutside mark t.trim).map trim = (splitOutside mark t).map trim := by
  have cutter : IsCutter (splitOutside mark) := isCutter_splitFrom ink quotesInk_none
  obtain ⟨blanks, whole, blank⟩ := exists_of_trimRight t.trimLeft
  have right : (splitOutside mark t.trimLeft).map trimRight = (splitOutside mark t.trim).map trimRight := by
    conv => lhs; rw [whole]
    exact map_trimRight_splitFrom ink blank _ none
  have both (pieces : List Text) : pieces.map trim = (pieces.map trimRight).map trimLeft := by
    rw [List.map_map]
    exact List.map_congr_left fun piece _ => trimRight_trimLeft piece
  calc
    (splitOutside mark t.trim).map trim = (splitOutside mark t.trimLeft).map trim := by
      rw [both, both, right]
    _ = ((splitOutside mark t).modifyHead trimLeft).map trim := by rw [cutter.trimLeft]
    _ = (splitOutside mark t).map trim := by
      cases splitOutside mark t with
      | nil => rfl
      | cons piece others => simp [trim, trimLeft_trimLeft]

theorem exists_intercalate_cons (joint piece : Text) (pieces : List Text) :
    ∃ rest, joint.intercalate (piece :: pieces) = piece ++ rest := by
  cases pieces with
  | nil => exact ⟨[], by simp⟩
  | cons next pieces => exact ⟨_, List.intercalate_cons_cons.trans (List.append_assoc _ _ _)⟩

/-- What holds of all characters of the pieces and of what joins them holds of all that are joined. -/
theorem forall_mem_intercalate {holds : Char → Prop} {joint : Text} (joins : ∀ c ∈ joint, holds c)
    (each : ∀ piece ∈ pieces, ∀ c ∈ piece, holds c) : ∀ c ∈ joint.intercalate pieces, holds c := by
  induction pieces with
  | nil => exact nofun
  | cons piece pieces ih =>
    obtain ⟨here, later⟩ := List.forall_mem_cons.mp each
    cases pieces with
    | nil => rwa [List.intercalate_singleton]
    | cons next pieces =>
      rw [List.intercalate_cons_cons]
      exact List.forall_mem_append.mpr ⟨List.forall_mem_append.mpr ⟨here, joins⟩, ih later⟩

end Text

theorem isRawName_of_isIdentifier {name : Text} (identifier : isIdentifier name = true) : isRawName name = true := by
  simp only [isIdentifier, Bool.and_eq_true] at identifier
  have shaped := identifier.1
  have all := isWordChar_of_isIdentifier (Bool.and_eq_true_iff.mpr identifier)
  rcases name with _ | ⟨c, _ | ⟨d, rest⟩⟩
  · cases shaped
  · rw [isRawName, Bool.and_eq_true, Bool.or_eq_true]
    exact ⟨Or.inl shaped, rfl⟩
  · simp only [hasNameShape, Bool.and_eq_true, Bool.or_eq_true] at shaped
    rw [isRawName, Bool.and_eq_true, Bool.or_eq_true]
    exact ⟨shaped.1.imp And.left And.left, List.all_eq_true.mpr fun e member => all e (List.mem_cons_of_mem c member)⟩

theorem ink_of_isIdentifier {name : Text} (identifier : isIdentifier name = true) : ∀ c ∈ name, isBlank c = false :=
  ink_of_isRawName (isRawName_of_isIdentifier identifier)

theorem isReserved_of_isIdentifier {name : Text} (identifier : isIdentifier name = true) : isReserved name = false := by
  simp only [isIdentifier, Bool.and_eq_true, Bool.not_eq_true'] at identifier
  exact identifier.2

namespace Fragment

/-- Blanks in front of a fragment are no part of it. -/
theorem ofText_trimLeft (t : Text) : ofText t.trimLeft = ofText t := by
  induction t with
  | nil => rfl
  | cons c t ih =>
    cases blank : isBlank c with
    | false => rw [trimLeft_ink blank]
    | true =>
      have unlike : (c != '=') = true := by
        rw [bne_iff_ne]
        rintro rfl
        cases blank
      have same (t : Text) : trim (c :: t) = t.trim := by rw [trim, trimLeft_blank blank, trim]
      rw [trimLeft_blank blank, ih, ofText, ofText]
      simp only [List.dropWhile_cons, List.takeWhile_cons, unlike, if_true, same]

end Fragment

namespace VariableLine

theorem map_ofText_trimLeft (t : Text) :
    (splitOutside ',' t.trimLeft).map Fragment.ofText = (splitOutside ',' t).map Fragment.ofText := by
  have cutter : IsCutter (splitOutside ',') := isCutter_splitFrom rfl quotesInk_none
  rw [cutter.trimLeft]
  cases splitOutside ',' t with
  | nil => rfl
  | cons piece others => simp [Fragment.ofText_trimLeft]

/-- The fragments of a line, but for its end, are the pieces between its commas. -/
theorem fragmentsOf_trimLeft (body : Text) :
    fragmentsOf (body ++ [';']).trimLeft = (splitOutside ',' body).map Fragment.ofText := by
  have semicolon : isBlank ';' = false := rfl
  rw [trimLeft_append_ink semicolon, fragmentsOf_append, map_ofText_trimLeft]

end VariableLine

namespace Statement

variable (isFinal : Bool) (ty : Ty)

theorem trim_front (body : Text) :
    (front isFinal ty ++ body ++ [';']).trim = front isFinal ty ++ (body ++ [';']) := by
  obtain ⟨c, rest, whole, ink⟩ := (isFront_front isFinal ty).exists_ink
  rw [whole, List.cons_append, trim_of_ends ink rfl]
  simp

/-- A declaration declares the pieces between its commas, whatever they look like. -/
theorem ofLine?_front (body : Text) :
    VariableLine.ofLine? (front isFinal ty ++ body ++ [';']) =
      some (.declaration isFinal ty ((splitOutside ',' body).map Fragment.ofText)) := by
  have typed : typed? (front isFinal ty ++ body ++ [';']).trim = some (isFinal, ty, (body ++ [';']).trimLeft) := by
    rw [trim_front, (isFront_front isFinal ty).typed?]
  rw [ofLine?_of_typed? typed, VariableLine.fragmentsOf_trimLeft]

end Statement
end Linewise
