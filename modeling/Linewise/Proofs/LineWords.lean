import Linewise.Proofs.Lockstep
import Linewise.Proofs.StatementPrefix

/-! Whatever the check of a line looks up stands in the line, and no word of the line runs over
its ends: it was cut out at blanks and at marks, which belong to no word. So where it is a name
at all, it is one of the words of the line. -/

namespace Linewise

namespace Text

/-- A part of a text with no word character right before it or right after it. -/
def PartOf (part t : Text) : Prop :=
  ∃ before after, t = before ++ part ++ after ∧ startsWord before.reverse = false ∧ startsWord after = false

def IsWordOf (word t : Text) : Prop :=
  (∀ c ∈ word, isWordChar c = true) ∧ word.PartOf t

theorem startsWord_append {t rest : Text} (unstarted : t.startsWord = false) (unword : rest.startsWord = false) :
    startsWord (t ++ rest) = false := by
  cases t with
  | nil => exact unword
  | cons c t => exact unstarted

theorem startsWord_of_marks {marks : Text} (unword : ∀ c ∈ marks, isWordChar c = false) : marks.startsWord = false := by
  cases marks with
  | nil => rfl
  | cons c marks => exact unword c (by simp)

theorem unword_singleton {mark : Char} (unword : isWordChar mark = false) : ∀ c ∈ [mark], isWordChar c = false := by
  intro c member
  rwa [List.mem_singleton.mp member]

/-- What a mark stands before does not matter. -/
theorem startsWord_append_of_marks {marks : Text} (unword : ∀ c ∈ marks, isWordChar c = false) (marked : marks ≠ [])
    (rest : Text) : startsWord (marks ++ rest) = false := by
  cases marks with
  | nil => exact absurd rfl marked
  | cons c marks => exact unword c (by simp)

namespace PartOf

variable {part middle t : Text}

theorem refl (t : Text) : t.PartOf t :=
  ⟨[], [], (List.append_nil t).symm, rfl, rfl⟩

theorem trans (inner : part.PartOf middle) (outer : middle.PartOf t) : part.PartOf t := by
  obtain ⟨before, after, rfl, begins, ends⟩ := inner
  obtain ⟨front, rest, rfl, starts, stops⟩ := outer
  refine ⟨front ++ before, after ++ rest, by simp, ?_, startsWord_append ends stops⟩
  rw [List.reverse_append]
  exact startsWord_append begins starts

theorem front {rest : Text} (t : Text) (stops : rest.startsWord = false) : t.PartOf (t ++ rest) :=
  ⟨[], rest, rfl, rfl, stops⟩

theorem back {marks : Text} (before t : Text) (unword : ∀ c ∈ marks, isWordChar c = false) (marked : marks ≠ []) :
    t.PartOf (before ++ marks ++ t) := by
  refine ⟨before ++ marks, [], by simp, ?_, rfl⟩
  rw [List.reverse_append]
  exact startsWord_append_of_marks (by simpa using unword) (by simpa using marked) _

theorem trimLeft (t : Text) : t.trimLeft.PartOf t := by
  obtain ⟨blanks, whole, blank⟩ := exists_of_trimLeft t
  refine ⟨blanks, [], by rwa [List.append_nil], startsWord_of_marks fun c member => ?_, rfl⟩
  exact isWordChar_of_isBlank (blank c (List.mem_reverse.mp member))

theorem trimRight (t : Text) : t.trimRight.PartOf t := by
  obtain ⟨blanks, whole, blank⟩ := exists_of_trimRight t
  exact ⟨[], blanks, whole, rfl, startsWord_of_marks fun c member => isWordChar_of_isBlank (blank c member)⟩

theorem trim (t : Text) : t.trim.PartOf t :=
  (trimRight t.trimLeft).trans (trimLeft t)

end PartOf

/-- A text is cut into pieces at marks, none of which belongs to a word. -/
inductive Cuts : Text → List Text → Prop where
  | whole (t : Text) : Cuts t [t]
  | cut {piece marks rest pieces} (unword : ∀ c ∈ marks, isWordChar c = false) (marked : marks ≠ [])
      (cuts : Cuts rest pieces) : Cuts (piece ++ marks ++ rest) (piece :: pieces)

namespace Cuts

theorem ne_nil {t : Text} {pieces : List Text} (cuts : Cuts t pieces) : pieces ≠ [] := by
  cases cuts <;> exact List.cons_ne_nil _ _

theorem cons {t piece : Text} {pieces : List Text} (cuts : Cuts t (piece :: pieces)) (c : Char) :
    Cuts (c :: t) ((c :: piece) :: pieces) := by
  cases cuts with
  | whole => exact .whole _
  | @cut _ marks rest _ unword marked cuts =>
    change Cuts (c :: piece ++ marks ++ rest) _
    exact .cut unword marked cuts

/-- A mark at the very front is cut at too. -/
theorem mark {marks rest : Text} {pieces : List Text} (unword : ∀ c ∈ marks, isWordChar c = false) (marked : marks ≠ [])
    (cuts : Cuts rest pieces) : Cuts (marks ++ rest) ([] :: pieces) := by
  change Cuts ([] ++ marks ++ rest) _
  exact .cut unword marked cuts

theorem partOf {t piece : Text} {pieces : List Text} (cuts : Cuts t pieces) (member : piece ∈ pieces) :
    piece.PartOf t := by
  induction cuts with
  | whole t =>
    obtain rfl := List.mem_singleton.mp member
    exact .refl piece
  | @cut first marks rest pieces unword marked cuts ih =>
    rcases List.mem_cons.mp member with rfl | member
    · rw [List.append_assoc]
      exact .front piece (startsWord_append_of_marks unword marked rest)
    · exact (ih member).trans (.back first rest unword marked)

end Cuts

theorem cuts_splitFrom {mark : Char} (unword : isWordChar mark = false) (opened : Option Char) (t : Text) :
    Cuts t (splitFrom mark opened t) := by
  induction t generalizing opened with
  | nil => exact .whole []
  | cons c rest ih =>
    have cuts := ih (quoteAfter opened c)
    rw [splitFrom]
    split
    · next separated =>
      obtain rfl : c = mark := by
        simp only [separates, Bool.and_eq_true, beq_iff_eq] at separated
        exact separated.2
      exact cuts.mark (unword_singleton unword) (List.cons_ne_nil c [])
    · cases pieces : splitFrom mark (quoteAfter opened c) rest with
      | nil => exact absurd pieces (splitFrom_ne_nil _ _ _)
      | cons piece others =>
        rw [pieces] at cuts
        exact cuts.cons c

theorem isWordChar_of_isOperator {c d : Char} (operator : Check.isOperator c d = true) :
    isWordChar c = false ∧ isWordChar d = false := by
  simp only [Check.isOperator, Bool.or_eq_true, Bool.and_eq_true, beq_iff_eq] at operator
  rcases operator with ⟨rfl, rfl⟩ | ⟨rfl, rfl⟩ <;> exact ⟨rfl, rfl⟩

theorem cuts_atoms (t : Text) : Cuts t (Check.atoms t) := by
  induction t using Check.atoms.induct with
  | case1 => exact .whole []
  | case2 c => exact .whole [c]
  | case3 c d rest operator ih =>
    rw [Check.atoms, if_pos operator]
    refine ih.mark ?_ (List.cons_ne_nil c [d])
    obtain ⟨first, second⟩ := isWordChar_of_isOperator operator
    intro e member
    rcases List.mem_cons.mp member with rfl | member
    · exact first
    · exact unword_singleton second e member
  | case4 c d rest single none ih => exact absurd none ih.ne_nil
  | case5 c d rest single atom others pieces ih =>
    rw [Check.atoms, if_neg single, pieces]
    rw [pieces] at ih
    exact ih.cons c

/-- What brackets enclose has a bracket on either side, whatever stands before them. -/
theorem partOf_of_bracketed? {mark : Char} {t inner : Text} (found : t.bracketed? mark = some inner) (before : Text) :
    inner.PartOf (before ++ t) := by
  obtain ⟨space, after, -, -, rfl⟩ := bracketed?_eq_some_iff.mp found
  refine ⟨before ++ space ++ ['('], ')' :: after ++ [mark], by simp, ?_, rfl⟩
  rw [List.reverse_append]
  rfl

theorem partOf_of_afterBlanks? {t rest : Text} (found : t.afterBlanks? = some rest) (before : Text) :
    rest.PartOf (before ++ t) := by
  obtain ⟨c, more, rfl, blank, rfl⟩ := afterBlanks?_eq_some_iff.mp found
  have behind : PartOf more (before ++ [c] ++ more) :=
    .back before more (unword_singleton (isWordChar_of_isBlank blank)) (List.cons_ne_nil c [])
  rw [List.append_assoc] at behind
  exact (PartOf.trimLeft more).trans behind

end Text

open Text

/-- The name of a fragment and its value stand on either side of an equals sign. -/
theorem Fragment.partOf_of_mem_lookups {t part : Text} (member : part ∈ (Fragment.ofText t).lookups) : part.PartOf t := by
  unfold Fragment.ofText at member
  split at member
  · obtain rfl : part = t.trim := by simpa [Fragment.lookups] using member
    exact .trim t
  · next sign value rest =>
    obtain ⟨rfl, whole⟩ := eq_append_of_dropWhile rest
    rw [← List.singleton_append, ← List.append_assoc] at whole
    have named : PartOf (t.takeWhile (· != '=')) t := by
      have split : PartOf (t.takeWhile (· != '=')) (t.takeWhile (· != '=') ++ (['='] ++ value)) := .front _ rfl
      rwa [← List.append_assoc, ← whole] at split
    have valued : PartOf value t := by
      have split : PartOf value (t.takeWhile (· != '=') ++ ['='] ++ value) := .back _ value (unword_singleton rfl) (List.cons_ne_nil _ _)
      rwa [← whole] at split
    simp only [Fragment.lookups, Option.toList_some, List.map_cons, List.map_nil, trim_trim, List.mem_cons,
      List.not_mem_nil, or_false] at member
    rcases member with rfl | rfl
    · exact (PartOf.trim _).trans named
    · exact (PartOf.trim value).trans valued

namespace VariableLine

theorem partOf_of_afterSpaced? {t word rest : Text} (found : afterSpaced? t word = some rest) : rest.PartOf t := by
  obtain ⟨more, rfl, spaced⟩ := afterSpaced?_eq_some_iff.mp found
  exact partOf_of_afterBlanks? spaced word

theorem getD_afterSpaced?_partOf (t word : Text) : Text.PartOf ((afterSpaced? t word).getD t) t := by
  cases found : afterSpaced? t word with
  | none => exact .refl t
  | some rest => exact partOf_of_afterSpaced? found

theorem withoutEnd_partOf (t : Text) : (withoutEnd t).PartOf t := by
  unfold withoutEnd
  cases found : t.beforeLast? ';' with
  | none => exact .refl t
  | some front =>
    have whole := beforeLast?_eq_some_iff.mp found
    rw [whole]
    exact .front front rfl

theorem partOf_of_mem_fragmentsOf {t part : Text} {fragment : Fragment} (member : fragment ∈ fragmentsOf t)
    (looked : part ∈ fragment.lookups) : part.PartOf t := by
  obtain ⟨piece, cut, rfl⟩ := List.mem_map.mp member
  have inside : piece.PartOf (withoutEnd t) := (cuts_splitFrom (by decide) none (withoutEnd t)).partOf cut
  exact (Fragment.partOf_of_mem_lookups looked).trans (inside.trans (withoutEnd_partOf t))

/-- All fragments of a line are fragments of what stands behind its type and the word `final`. -/
theorem exists_of_ofLine? {line : Text} {read : VariableLine} (known : ofLine? line = some read) :
    ∃ rest, rest.PartOf line ∧ read.fragments = fragmentsOf rest := by
  have unfinal := (getD_afterSpaced?_partOf line.trim Keyword.final).trans (.trim line)
  dsimp only [ofLine?] at known
  split at known
  · next ty _ =>
    cases known
    exact ⟨_, (getD_afterSpaced?_partOf _ ty.keyword).trans unfinal, rfl⟩
  · split at known <;> cases known
    exact ⟨_, unfinal, rfl⟩

theorem partOf_of_mem_lookupsOf {line part : Text} (member : part ∈ lookupsOf line) : part.PartOf line := by
  unfold lookupsOf at member
  cases known : ofLine? line with
  | none =>
    rw [known] at member
    cases member
  | some read =>
    rw [known] at member
    obtain ⟨rest, behind, fragments⟩ := exists_of_ofLine? known
    obtain ⟨fragment, there, looked⟩ := List.mem_flatMap.mp member
    rw [fragments] at there
    exact (partOf_of_mem_fragmentsOf there looked).trans behind

end VariableLine

namespace Statement

theorem partOf_of_blockHead? {line t : Text} (found : blockHead? line = some t) : t.PartOf line := by
  obtain ⟨rest, headed, found⟩ := Option.bind_eq_some_iff.mp found
  obtain ⟨inner, bracketed, same⟩ := Option.bind_eq_some_iff.mp found
  cases same
  obtain ⟨word, whole⟩ : ∃ word, line.trim = word ++ rest := by
    rcases Option.or_eq_some_iff.mp headed with headed | ⟨_, headed⟩
    · exact ⟨_, (afterWord?_eq_some_iff.mp headed).1⟩
    · exact ⟨_, (afterWord?_eq_some_iff.mp headed).1⟩
  have inside := partOf_of_bracketed? bracketed word
  rw [← whole] at inside
  exact (PartOf.trim inner).trans (inside.trans (.trim line))

theorem partOf_of_call? {line callee given : Text} (found : call? line = some (callee, given)) : given.PartOf line := by
  obtain ⟨⟨name, rest⟩, own, found⟩ := Option.bind_eq_some_iff.mp found
  obtain ⟨inner, bracketed, same⟩ := Option.bind_eq_some_iff.mp found
  cases same
  have whole := append_of_rawName? (ownName?_eq_some_iff.mp own).1
  have inside := partOf_of_bracketed? bracketed callee
  rw [whole] at inside
  exact (PartOf.trim inner).trans (inside.trans (.trim line))

end Statement

theorem Check.partOf_of_mem_argumentsOf {given part : Text} (member : part ∈ Check.argumentsOf given) : part.PartOf given := by
  unfold Check.argumentsOf at member
  split at member
  · cases member
  · exact ((cuts_splitFrom (by decide) none given.trim).partOf member).trans (.trim given)

/-- What a line looks up stands in it, with no word running over its ends. -/
theorem Check.partOf_of_mem_lookups {line part : Text} (member : part ∈ Check.lookups line) : part.PartOf line := by
  unfold Check.lookups at member
  cases known : Statement.ofLine line with
  | none =>
    rw [known] at member
    cases member
  | some statement =>
    rw [known] at member
    have fits := Statement.fits_of_ofLine known
    have inside : part.PartOf line.trim := by
      cases statement with
      | declaration | assignment => exact VariableLine.partOf_of_mem_lookupsOf member
      | call callee given =>
        obtain ⟨argument, there, rfl⟩ := List.mem_map.mp member
        have argued := (PartOf.trim argument).trans (Check.partOf_of_mem_argumentsOf there)
        exact argued.trans (Statement.partOf_of_call? fits)
      | blockHead t =>
        obtain ⟨atom, there, rfl⟩ := List.mem_map.mp member
        have joined := (PartOf.trim atom).trans ((cuts_atoms t).partOf there)
        exact joined.trans (Statement.partOf_of_blockHead? fits)
      | methodHead _ _ | blockEnd | ret => cases member
    exact inside.trans (.trim line)

end Linewise
