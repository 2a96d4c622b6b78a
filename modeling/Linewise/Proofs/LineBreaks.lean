import Linewise.Proofs.RawLines

/-! Where a text is broken into lines. Blanks at the end of a raw line decide nothing, and a carriage
return is one of them, so what is left of a text can be told line by line, and it is the same however
its lines are ended. -/

namespace Linewise
open Text

namespace Text

variable {line rest stop t : Text} {others : List Text}

private theorem lines_append_stop (stops : lines stop = [] :: others) (feedless : '\n' ∉ line)
    (apart : stop.head? = some '\n' → line.getLast? ≠ some '\r') : lines (line ++ stop) = line :: others := by
  induction line with
  | nil => exact stops
  | cons c line ih =>
    rw [List.mem_cons, not_or] at feedless
    obtain ⟨here, later⟩ := feedless
    have unreturned : (c = '\r' && (line ++ stop).head? == some '\n') = false := by
      rw [Bool.and_eq_false_imp]
      intro returned
      rw [decide_eq_true_eq] at returned
      cases line with
      | nil =>
        rw [List.nil_append, beq_eq_false_iff_ne]
        exact fun feed => apart feed (congrArg some returned)
      | cons d line =>
        rw [List.mem_cons, not_or] at later
        simpa using Ne.symm later.1
    have next : lines (line ++ stop) = line :: others := by
      refine ih later fun feed last => apart feed ?_
      rw [List.getLast?_cons, last]
      rfl
    rw [List.cons_append, lines, if_neg (Ne.symm here), unreturned, next]
    rfl

/-- A line feed alone ends a line that does not end in a carriage return. -/
theorem lines_append_feed (feedless : '\n' ∉ line) (unreturned : line.getLast? ≠ some '\r') (rest : Text) :
    lines (line ++ '\n' :: rest) = line :: lines rest :=
  lines_append_stop (by simp [lines]) feedless fun _ => unreturned

/-- A carriage return in front of a line feed is no part of the line. Any further one is. -/
theorem lines_append_return_feed (feedless : '\n' ∉ line) (rest : Text) :
    lines (line ++ '\r' :: '\n' :: rest) = line :: lines rest :=
  lines_append_stop (by simp [lines]) feedless nofun

theorem lines_of_feedless (shown : line ≠ []) (feedless : '\n' ∉ line) : lines line = [line] := by
  induction line with
  | nil => exact absurd rfl shown
  | cons c line ih =>
    rw [List.mem_cons, not_or] at feedless
    obtain ⟨here, later⟩ := feedless
    cases line with
    | nil => simp [lines, Ne.symm here]
    | cons d line =>
      have feed : d ≠ '\n' := fun same => later (same ▸ List.mem_cons_self)
      rw [lines, ih (List.cons_ne_nil d line) later]
      simp [Ne.symm here, feed]

/-- A text is one line without line feeds, or it goes on behind such a line and a line feed. -/
theorem induct_of_lines {holds : Text → Prop} (last : ∀ line, '\n' ∉ line → holds line)
    (feed : ∀ line rest, '\n' ∉ line → holds rest → holds (line ++ '\n' :: rest)) (t : Text) : holds t := by
  have behind : ∀ line, '\n' ∉ line → holds (line ++ t) := by
    induction t with
    | nil =>
      intro line feedless
      rw [List.append_nil]
      exact last line feedless
    | cons c t ih =>
      intro line feedless
      by_cases feeds : c = '\n'
      · subst feeds
        exact feed line t feedless (ih [] List.not_mem_nil)
      · rw [List.append_cons]
        refine ih (line ++ [c]) ?_
        simp [feedless, Ne.symm feeds]
  exact behind [] List.not_mem_nil

def withReturns (t : Text) : Text :=
  t.flatMap fun c => if c = '\n' then ['\r', '\n'] else [c]

theorem withReturns_of_feedless (feedless : '\n' ∉ line) : withReturns line = line := by
  induction line with
  | nil => rfl
  | cons c line ih =>
    rw [List.mem_cons, not_or] at feedless
    rw [withReturns, List.flatMap_cons, if_neg (Ne.symm feedless.1), List.singleton_append, ← withReturns, ih feedless.2]

theorem withReturns_append_feed (feedless : '\n' ∉ line) (rest : Text) :
    withReturns (line ++ '\n' :: rest) = line ++ ['\r'] ++ '\n' :: withReturns rest := by
  have same := withReturns_of_feedless feedless
  rw [withReturns] at same ⊢
  rw [List.flatMap_append, same, List.flatMap_cons, if_pos rfl, ← withReturns]
  simp

namespace IsWord

variable {word : Text}

theorem prefix_trimRight_iff (isWord : word.IsWord) : word <+: t.trimRight ↔ word <+: t := by
  have shorter : t.trimRight <+: t := trimRight_prefix t
  constructor
  · exact fun starts => starts.trans shorter
  · rintro ⟨rest, rfl⟩
    have kept := isWord.trimRight_append [] rest
    rw [List.nil_append] at kept
    rw [kept]
    exact ⟨trimRight rest, rfl⟩

theorem infix_trimRight_iff (isWord : word.IsWord) : word <:+: t.trimRight ↔ word <:+: t := by
  have shorter : t.trimRight <+: t := trimRight_prefix t
  constructor
  · exact fun inner => inner.trans shorter.isInfix
  · rintro ⟨before, after, rfl⟩
    exact ⟨before, trimRight after, (isWord.trimRight_append before after).symm⟩

end IsWord
end Text

namespace RawLine

variable {line gap : Text}

/-- Blanks at the end of a line do not decide what becomes of it, and are not kept. -/
theorem ofText_trimRight (line : Text) : ofText line.trimRight = ofText line := by
  have trimmed : line.trimRight.trim = line.trim := by
    rw [trim, trimRight_trimLeft, trimRight_trimRight, ← trimRight_trimLeft, trim]
  have skips : startsComment line.trimRight = startsComment line := by
    rw [Bool.eq_iff_iff, startsComment_iff, startsComment_iff, isWord_lineMark.prefix_trimRight_iff]
  have opens : opensBlockComment line.trimRight = opensBlockComment line := by
    rw [Bool.eq_iff_iff, opensBlockComment_iff, opensBlockComment_iff, isWord_blockMark.infix_trimRight_iff]
  have indented : startsComment line.trimRight.trimLeft = startsComment line.trimLeft := by
    rw [Bool.eq_iff_iff, startsComment_iff, startsComment_iff, ← trimRight_trimLeft, isWord_lineMark.prefix_trimRight_iff]
  rw [ofText, ofText, trimmed, skips, opens, indented, trimRight_trimRight, collapse, collapse, trimmed]

theorem ofText_append_blanks (blank : ∀ c ∈ gap, isBlank c = true) (line : Text) : ofText (line ++ gap) = ofText line := by
  rw [← ofText_trimRight, trimRight_append_blanks blank, ofText_trimRight]

end RawLine

namespace Source

variable {line : Text}

def ofLines (rows : List Text) : Source :=
  ⟨(rows.map RawLine.ofText).filterMap RawLine.kept?, (rows.map RawLine.ofText).countP RawLine.isRefused⟩

def append (first second : Source) : Source :=
  ⟨first.lines ++ second.lines, first.refused + second.refused⟩

theorem append_assoc (first second third : Source) :
    (first.append second).append third = first.append (second.append third) := by
  simp only [append, List.append_assoc, Nat.add_assoc]

theorem nil_append (source : Source) : append ⟨[], 0⟩ source = source := by
  simp only [append, List.nil_append, Nat.zero_add]

theorem ofLines_cons (line : Text) (rows : List Text) : ofLines (line :: rows) = (ofLines [line]).append (ofLines rows) := by
  simp only [ofLines, append, ← List.filterMap_append, ← List.countP_append, ← List.map_append, List.singleton_append]

theorem ofLines_of_skipped (skipped : RawLine.ofText line = .skipped) : ofLines [line] = ⟨[], 0⟩ := by
  rw [ofLines, List.map_singleton, skipped]
  rfl

theorem ofLines_append_blanks {gap : Text} (blank : ∀ c ∈ gap, isBlank c = true) (line : Text) :
    ofLines [line ++ gap] = ofLines [line] := by
  rw [ofLines, ofLines, List.map_singleton, List.map_singleton, RawLine.ofText_append_blanks blank]

/-- The last line may be empty, and is none then, but an empty line leaves nothing anyway. -/
theorem ofText_of_feedless (feedless : '\n' ∉ line) : ofText line = ofLines [line] := by
  cases line with
  | nil => exact (ofLines_of_skipped rfl).symm
  | cons c line => rw [ofText, lines_of_feedless (List.cons_ne_nil c line) feedless, ofLines]

private theorem isBlank_return : ∀ c ∈ ['\r'], isBlank c = true :=
  List.forall_mem_singleton.mpr rfl

/-- What is left of a line does not depend on how it is ended. -/
theorem ofText_append_feed_of_feedless (feedless : '\n' ∉ line) (rest : Text) :
    ofText (line ++ '\n' :: rest) = (ofLines [line]).append (ofText rest) := by
  by_cases returned : line.getLast? = some '\r'
  · obtain ⟨front, rfl⟩ := List.getLast?_eq_some_iff.mp returned
    have free : '\n' ∉ front := fun member => feedless (List.mem_append_left _ member)
    rw [ofLines_append_blanks isBlank_return, ofText, List.append_assoc, List.singleton_append,
      lines_append_return_feed free]
    exact ofLines_cons front (Text.lines rest)
  · rw [ofText, lines_append_feed feedless returned]
    exact ofLines_cons line (Text.lines rest)

theorem ofText_append_feed (a b : Text) : ofText (a ++ '\n' :: b) = (ofText a).append (ofText b) := by
  induction a using induct_of_lines with
  | last line feedless => rw [ofText_append_feed_of_feedless feedless, ofText_of_feedless feedless]
  | feed line rest feedless ih =>
    rw [List.append_assoc, List.cons_append, ofText_append_feed_of_feedless feedless, ih, ← append_assoc,
      ofText_append_feed_of_feedless feedless]

theorem ofText_withReturns (content : Text) : ofText content.withReturns = ofText content := by
  induction content using induct_of_lines with
  | last line feedless => rw [withReturns_of_feedless feedless]
  | feed line rest feedless ih =>
    have returned : '\n' ∉ line ++ ['\r'] := by simp [feedless]
    rw [withReturns_append_feed feedless, ofText_append_feed_of_feedless returned, ofLines_append_blanks isBlank_return, ih,
      ofText_append_feed_of_feedless feedless]

end Source

namespace LineBreaks

/-- What is left of a text is left of its lines one by one. So a line that is blank or a comment may stand
between any two others, and the lines may end in a carriage return and a line feed as well as in a line
feed alone, whatever else they end in. -/
theorem source_is_told_by_lines :
    (∀ a b : Text, Source.ofText (a ++ '\n' :: b) =
      ⟨(Source.ofText a).lines ++ (Source.ofText b).lines, (Source.ofText a).refused + (Source.ofText b).refused⟩) ∧
    (∀ a b line : Text, '\n' ∉ line → line.trim = [] ∨ RawLine.lineMark <+: line →
      Source.ofText (a ++ '\n' :: line ++ '\n' :: b) = Source.ofText (a ++ '\n' :: b)) ∧
    ∀ content : Text, Source.ofText content.withReturns = Source.ofText content := by
  refine ⟨Source.ofText_append_feed, ?_, Source.ofText_withReturns⟩
  intro a b line feedless nothing
  have skipped : RawLine.ofText line = .skipped := RawLine.ofText_eq_iff_sorts.mpr (.skipped nothing)
  rw [List.append_assoc, List.cons_append, Source.ofText_append_feed, Source.ofText_append_feed_of_feedless feedless,
    Source.ofLines_of_skipped skipped, Source.nil_append, ← Source.ofText_append_feed]

/-- The line in between ends in a carriage return, as its neighbours do. -/
theorem commented_reads_alike :
    '\n' ∉ "// int b\r".toList ∧ RawLine.lineMark <+: "// int b\r".toList ∧
      Source.ofText "int  a;\r\n// int b\r\nint c\r".toList = Source.ofText "int  a;\r\nint c\r".toList ∧
      Source.ofText "int  a;\r\nint c\r".toList = ⟨["int a;".toList], 1⟩ := by
  have feedless : '\n' ∉ "// int b\r".toList := by decide
  have commented : RawLine.lineMark <+: "// int b\r".toList := by decide
  have alike := source_is_told_by_lines.2.1 "int  a;\r".toList "int c\r".toList _ feedless (Or.inr commented)
  exact ⟨feedless, commented, alike, by decide +kernel⟩

end LineBreaks
end Linewise
