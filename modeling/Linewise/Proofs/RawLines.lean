import Linewise.Proofs.SpelledParts
import Linewise.Source

/-! What a raw line is refused, skipped or kept for. The marks of comments have no blank in them, so
they stand in what is kept of a line exactly where they stand in the line, and they stand in quotes
there exactly where they do in the line. -/

namespace Linewise
open Text

namespace Text

variable {c : Char} {opened : Option Char} {t word before after : Text}

structure IsWord (word : Text) : Prop where
  shown : word ≠ []
  ink : ∀ c ∈ word, isBlank c = false

/-- The mark stands somewhere in a text, with no quote open in front of it. -/
def Unquoted (mark t : Text) : Prop :=
  ∃ before after, t = before ++ mark ++ after ∧ before.foldl quoteAfter none = none

theorem foldl_quoteAfter_of_blanks (shown : QuotesInk opened) (blank : ∀ c ∈ t, isBlank c = true) :
    t.foldl quoteAfter opened = opened := by
  induction t with
  | nil => rfl
  | cons c t ih =>
    obtain ⟨first, others⟩ := List.forall_mem_cons.mp blank
    rw [List.foldl_cons, quoteAfter_blank shown first, ih others]

theorem foldl_quoteAfter_trimLeft (shown : QuotesInk opened) (t : Text) :
    t.trimLeft.foldl quoteAfter opened = t.foldl quoteAfter opened := by
  obtain ⟨blanks, whole, blank⟩ := exists_of_trimLeft t
  conv => rhs; rw [whole]
  rw [List.foldl_append, foldl_quoteAfter_of_blanks shown blank]

/-- Blanks neither open a quote nor close one. -/
theorem foldl_quoteAfter_squeeze (shown : QuotesInk opened) (t : Text) :
    t.squeeze.foldl quoteAfter opened = t.foldl quoteAfter opened := by
  induction t generalizing opened with
  | nil => rfl
  | cons c t ih =>
    cases blank : isBlank c with
    | true =>
      rw [squeeze_blank blank, ← trimLeft_squeeze, List.foldl_cons, List.foldl_cons, quoteAfter_blank shown blank,
        quoteAfter_blank shown isBlank_space, foldl_quoteAfter_trimLeft shown, ih shown]
    | false => rw [squeeze_ink blank, List.foldl_cons, List.foldl_cons, ih (quotesInk_quoteAfter shown c)]

theorem squeeze_append_of_ink (ink : ∀ c ∈ word, isBlank c = false) (t : Text) : squeeze (word ++ t) = word ++ t.squeeze := by
  induction word with
  | nil => rfl
  | cons c word ih =>
    obtain ⟨first, others⟩ := List.forall_mem_cons.mp ink
    rw [List.cons_append, squeeze_ink first, ih others, List.cons_append]

private theorem exists_of_squeeze (ink : isBlank c = false) (whole : t.squeeze = before ++ c :: after) :
    ∃ front behind, t = front ++ c :: behind ∧ squeeze front = before ∧ squeeze behind = after := by
  induction t generalizing before with
  | nil => cases before <;> cases whole
  | cons d t ih =>
    cases blank : isBlank d with
    | false =>
      rw [squeeze_ink blank] at whole
      cases before with
      | nil =>
        cases whole
        exact ⟨[], t, rfl, rfl, rfl⟩
      | cons e before =>
        obtain ⟨rfl, rest⟩ := List.cons.inj whole
        obtain ⟨front, behind, rfl, rfl, same⟩ := ih rest
        exact ⟨d :: front, behind, rfl, squeeze_ink blank front, same⟩
    | true =>
      rw [squeeze_blank blank, ← trimLeft_squeeze] at whole
      cases before with
      | nil =>
        cases whole
        cases ink
      | cons e before =>
        rw [List.cons_append, List.cons.injEq] at whole
        obtain ⟨rfl, rest⟩ := whole
        have bare : trimLeft before = before := by
          have trimmed := trimLeft_trimLeft (squeeze t)
          rw [rest, trimLeft_append_ink ink] at trimmed
          exact List.append_cancel_right trimmed
        -- One space stands for the whole run of blanks, and the induction is about a text that still
        -- has the others of them in front.
        obtain ⟨blanks, spaced, others⟩ := exists_of_trimLeft (squeeze t)
        rw [rest, ← List.append_assoc] at spaced
        obtain ⟨front, behind, rfl, same, left⟩ := ih spaced
        refine ⟨d :: front, behind, rfl, ?_, left⟩
        rw [squeeze_blank blank, ← trimLeft_squeeze, same, trimLeft_append_blanks others, bare]

namespace IsWord

theorem pair {c d : Char} (first : isBlank c = false) (second : isBlank d = false) : IsWord [c, d] :=
  ⟨List.cons_ne_nil _ _, by simp [first, second]⟩

theorem squeeze_append (isWord : word.IsWord) (before after : Text) :
    squeeze (before ++ word ++ after) = before.squeeze ++ word ++ after.squeeze := by
  obtain ⟨c, rest, rfl⟩ := List.exists_cons_of_ne_nil isWord.shown
  obtain ⟨ink, inks⟩ := List.forall_mem_cons.mp isWord.ink
  rw [List.append_assoc, List.cons_append, squeeze_append_ink ink, squeeze_append_of_ink inks, List.append_assoc,
    List.cons_append]

theorem trimLeft_append (isWord : word.IsWord) (before after : Text) :
    trimLeft (before ++ word ++ after) = before.trimLeft ++ word ++ after := by
  obtain ⟨c, rest, rfl⟩ := List.exists_cons_of_ne_nil isWord.shown
  rw [List.append_assoc, List.cons_append, trimLeft_append_ink (isWord.ink c List.mem_cons_self), List.append_assoc,
    List.cons_append]

theorem trimRight_append (isWord : word.IsWord) (before after : Text) :
    trimRight (before ++ word ++ after) = before ++ word ++ after.trimRight := by
  rcases List.eq_nil_or_concat word with none | ⟨initial, last, rfl⟩
  · exact absurd none isWord.shown
  · have ink : isBlank last = false := isWord.ink last (by simp)
    have whole : before ++ initial.concat last ++ after = before ++ initial ++ last :: after := by simp
    rw [whole, trimRight_append_cons_ink ink]
    simp

theorem trim_append (isWord : word.IsWord) (before after : Text) :
    trim (before ++ word ++ after) = before.trimLeft ++ word ++ after.trimRight := by
  rw [trim, isWord.trimLeft_append, isWord.trimRight_append]

theorem collapse_append (isWord : word.IsWord) (before after : Text) :
    collapse (before ++ word ++ after) = before.trimLeft.squeeze ++ word ++ after.trimRight.squeeze := by
  rw [collapse, isWord.trim_append, isWord.squeeze_append]

/-- A word of a collapsed text stands in the text, with as many quotes in front of it. -/
theorem exists_of_collapse (isWord : word.IsWord) (whole : t.collapse = before ++ word ++ after) :
    ∃ front behind, t = front ++ word ++ behind ∧ front.foldl quoteAfter none = before.foldl quoteAfter none := by
  obtain ⟨c, rest, rfl⟩ := List.exists_cons_of_ne_nil isWord.shown
  obtain ⟨ink, inks⟩ := List.forall_mem_cons.mp isWord.ink
  rw [collapse, List.append_assoc, List.cons_append] at whole
  obtain ⟨front, behind, trimmed, rfl, same⟩ := exists_of_squeeze ink whole
  have passed := after?_squeeze inks behind
  rw [after?_eq_some_iff.mpr same, eq_comm, Option.map_eq_some_iff] at passed
  obtain ⟨behind, found, -⟩ := passed
  obtain ⟨first, last, around, blank, -⟩ := exists_of_trim t
  refine ⟨first ++ front, behind ++ last, ?_, ?_⟩
  · rw [around, trimmed, after?_eq_some_iff.mp found]
    simp
  · rw [List.foldl_append, foldl_quoteAfter_of_blanks quotesInk_none blank, foldl_quoteAfter_squeeze quotesInk_none]

theorem infix_collapse_iff (isWord : word.IsWord) : word <:+: t.collapse ↔ word <:+: t := by
  constructor
  · rintro ⟨before, after, whole⟩
    obtain ⟨front, behind, rfl, -⟩ := isWord.exists_of_collapse whole.symm
    exact ⟨front, behind, rfl⟩
  · rintro ⟨before, after, rfl⟩
    exact ⟨_, _, (isWord.collapse_append before after).symm⟩

theorem unquoted_collapse_iff (isWord : word.IsWord) : Unquoted word t.collapse ↔ Unquoted word t := by
  constructor
  · rintro ⟨before, after, whole, closed⟩
    obtain ⟨front, behind, same, scanned⟩ := isWord.exists_of_collapse whole
    exact ⟨front, behind, same, scanned.trans closed⟩
  · rintro ⟨before, after, rfl, closed⟩
    refine ⟨_, _, isWord.collapse_append before after, ?_⟩
    rw [foldl_quoteAfter_squeeze quotesInk_none, foldl_quoteAfter_trimLeft quotesInk_none, closed]

/-- A collapsed text starts with what the text starts with behind its blanks. -/
theorem prefix_of_prefix_collapse (isWord : word.IsWord) (starts : word <+: t.collapse) : word <+: t.trimLeft := by
  obtain ⟨rest, whole⟩ := starts
  have passed := after?_squeeze isWord.ink t.trim
  rw [← collapse, after?_eq_some_iff.mpr whole.symm, eq_comm, Option.map_eq_some_iff] at passed
  obtain ⟨behind, found, -⟩ := passed
  have front : word <+: t.trim := ⟨behind, (after?_eq_some_iff.mp found).symm⟩
  have kept : t.trim <+: t.trimLeft := trimRight_prefix t.trimLeft
  exact front.trans kept

end IsWord
end Text

namespace RawLine

variable {line left : Text}

def lineMark : Text :=
  ['/', '/']

def blockMark : Text :=
  ['/', '*']

theorem isWord_lineMark : lineMark.IsWord :=
  .pair rfl rfl

theorem isWord_blockMark : blockMark.IsWord :=
  .pair rfl rfl

theorem startsComment_iff : startsComment line = true ↔ lineMark <+: line := by
  unfold startsComment
  split
  · next rest => exact ⟨fun _ => ⟨rest, rfl⟩, fun _ => rfl⟩
  · next unlike =>
    constructor
    · exact nofun
    · rintro ⟨rest, rfl⟩
      exact absurd rfl (unlike rest)

theorem opensBlockComment_iff : opensBlockComment line = true ↔ blockMark <:+: line := by
  fun_induction opensBlockComment line with
  | case1 => simp [blockMark]
  | case2 c => simp [blockMark, List.infix_cons_iff]
  | case3 c d rest ih =>
    rw [List.infix_cons_iff, ← ih, Bool.or_eq_true, Bool.and_eq_true, beq_iff_eq, beq_iff_eq, blockMark,
      List.cons_prefix_cons, List.cons_prefix_cons, eq_comm, @eq_comm _ d]
    simp

inductive Sorts (line : Text) : RawLine → Prop where
  | skipped (nothing : line.trim = [] ∨ lineMark <+: line) : Sorts line .skipped
  | comment (shown : line.trim ≠ []) (inner : ¬ lineMark <+: line)
      (commented : blockMark <:+: line ∨ lineMark <+: line.trimLeft) : Sorts line (.refused .comment)
  | ending (shown : line.trim ≠ []) (inner : ¬ lineMark <+: line) (bare : ¬ blockMark <:+: line)
      (uncommented : ¬ lineMark <+: line.trimLeft) (unended : ∀ c ∈ line.trimRight.getLast?, isEnding c = false) :
    Sorts line (.refused .ending)
  | kept (shown : line.trim ≠ []) (inner : ¬ lineMark <+: line) (bare : ¬ blockMark <:+: line)
      (uncommented : ¬ lineMark <+: line.trimLeft) (ended : ∃ c ∈ line.trimRight.getLast?, isEnding c = true) :
    Sorts line (.kept line.collapse)

private theorem skips_iff : (line.trim.isEmpty || startsComment line) = true ↔ line.trim = [] ∨ lineMark <+: line := by
  rw [Bool.or_eq_true, List.isEmpty_iff, startsComment_iff]

private theorem misplaces_iff : (opensBlockComment line || startsComment line.trimLeft) = true ↔
    blockMark <:+: line ∨ lineMark <+: line.trimLeft := by
  rw [Bool.or_eq_true, opensBlockComment_iff, startsComment_iff]

theorem ofText_eq_iff_sorts {raw : RawLine} : ofText line = raw ↔ Sorts line raw := by
  constructor
  · rintro rfl
    unfold ofText
    split
    · next skips => exact .skipped (skips_iff.mp skips)
    · next stays =>
      rw [skips_iff, not_or] at stays
      split
      · next misplaces => exact .comment stays.1 stays.2 (misplaces_iff.mp misplaces)
      · next placed =>
        rw [misplaces_iff, not_or] at placed
        split
        · next ended => exact .kept stays.1 stays.2 placed.1 placed.2 ((Option.any_eq_true _ _).mp ended)
        · next unended =>
          rw [Bool.not_eq_true, Option.any_eq_false] at unended
          exact .ending stays.1 stays.2 placed.1 placed.2 unended
  · intro sorted
    have stays (shown : line.trim ≠ []) (inner : ¬ lineMark <+: line) := skips_iff.not.mpr (not_or.mpr ⟨shown, inner⟩)
    have placed (bare : ¬ blockMark <:+: line) (uncommented : ¬ lineMark <+: line.trimLeft) :=
      misplaces_iff.not.mpr (not_or.mpr ⟨bare, uncommented⟩)
    cases sorted with
    | skipped nothing => rw [ofText, if_pos (skips_iff.mpr nothing)]
    | comment shown inner commented => rw [ofText, if_neg (stays shown inner), if_pos (misplaces_iff.mpr commented)]
    | ending shown inner bare uncommented unended =>
      have unended := (Option.any_eq_false isEnding _).mpr unended
      rw [ofText, if_neg (stays shown inner), if_neg (placed bare uncommented), if_neg (Bool.not_eq_true _ ▸ unended)]
    | kept shown inner bare uncommented ended =>
      have ended := (Option.any_eq_true isEnding _).mpr ended
      rw [ofText, if_neg (stays shown inner), if_neg (placed bare uncommented), if_pos ended]

theorem ofText_eq_refused_comment_iff : ofText line = .refused .comment ↔
    line.trim ≠ [] ∧ ¬ lineMark <+: line ∧ (blockMark <:+: line ∨ lineMark <+: line.trimLeft) := by
  rw [ofText_eq_iff_sorts]
  constructor
  · intro sorted
    cases sorted with
    | comment shown inner commented => exact ⟨shown, inner, commented⟩
  · rintro ⟨shown, inner, commented⟩
    exact .comment shown inner commented

/-- A line is kept where it has no comment in it that is looked for, and ends as statements and blocks do. -/
theorem ofText_eq_kept_iff : ofText line = .kept left ↔ left = line.collapse ∧
    ¬ blockMark <:+: line ∧ ¬ lineMark <+: line.trimLeft ∧ ∃ c ∈ line.trimRight.getLast?, isEnding c = true := by
  rw [ofText_eq_iff_sorts]
  constructor
  · intro sorted
    cases sorted with
    | kept shown inner bare uncommented ended => exact ⟨rfl, bare, uncommented, ended⟩
  · rintro ⟨rfl, bare, uncommented, c, last, ends⟩
    refine .kept ?_ ?_ bare uncommented ⟨c, last, ends⟩
    · rw [trim, Ne, trimRight_trimLeft, trimLeft_trimRight_eq_nil_iff]
      intro none
      rw [none] at last
      cases last
    · rintro ⟨rest, rfl⟩
      exact uncommented ⟨rest, (trimLeft_ink (c := '/') rfl ('/' :: rest)).symm⟩

theorem kept?_eq_some_iff {raw : RawLine} : raw.kept? = some line ↔ raw = kept line := by
  cases raw <;> simp [kept?]

end RawLine

theorem Source.mem_lines_iff {content line : Text} :
    line ∈ (Source.ofText content).lines ↔ ∃ raw ∈ content.lines, RawLine.ofText raw = .kept line := by
  rw [Source.ofText, List.mem_filterMap]
  simp only [RawLine.kept?_eq_some_iff, exists_eq_right, List.mem_map]

end Linewise
