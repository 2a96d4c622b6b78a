import Linewise.Proofs.LineBreaks

/-! What is left of a text is in a normal form. Its lines are kept as they are when they are taken for
a text again, for none of them is refused, and nothing in them is a break or can be collapsed. -/

namespace Linewise
open Text

namespace Text

variable {c : Char} {t : Text} {rows : List Text}

structure IsSpaced (t : Text) : Prop where
  spaces : ∀ c ∈ t, isBlank c = true → c = ' '
  single : ¬ [' ', ' '] <:+: t

theorem isSpaced_cons_ink (ink : isBlank c = false) : IsSpaced (c :: t) ↔ IsSpaced t := by
  have unlike : ¬ [' ', ' '] <+: c :: t := by
    intro starts
    rw [← (List.cons_prefix_cons.mp starts).1, isBlank_space] at ink
    cases ink
  constructor
  · rintro ⟨spaces, single⟩
    exact ⟨(List.forall_mem_cons.mp spaces).2, fun spaced => single (List.infix_cons spaced)⟩
  · rintro ⟨spaces, single⟩
    refine ⟨List.forall_mem_cons.mpr ⟨fun blank => ?_, spaces⟩, fun spaced => ?_⟩
    · rw [ink] at blank
      cases blank
    · exact (List.infix_cons_iff.mp spaced).elim unlike single

theorem isSpaced_cons_blank (blank : isBlank c = true) :
    IsSpaced (c :: t) ↔ c = ' ' ∧ t.trimLeft = t ∧ IsSpaced t := by
  constructor
  · rintro ⟨spaces, single⟩
    obtain ⟨first, others⟩ := List.forall_mem_cons.mp spaces
    obtain rfl := first blank
    refine ⟨rfl, trimLeft_eq_self fun d head => ?_, others, fun spaced => single (List.infix_cons spaced)⟩
    rw [← Bool.not_eq_true]
    intro again
    obtain rfl := others d (List.mem_of_mem_head? head) again
    obtain ⟨rest, rfl⟩ := List.head?_eq_some_iff.mp head
    exact single ⟨[], rest, rfl⟩
  · rintro ⟨rfl, bare, spaces, single⟩
    refine ⟨List.forall_mem_cons.mpr ⟨fun _ => rfl, spaces⟩, fun spaced => ?_⟩
    rcases List.infix_cons_iff.mp spaced with starts | later
    · obtain ⟨rest, rfl⟩ := (List.cons_prefix_cons.mp starts).2
      have ink := isBlank_of_head?_trimLeft (c := ' ') (by rw [bare]; rfl)
      cases ink
    · exact single later

/-- The texts that squeezing leaves as they are. -/
theorem squeeze_eq_self_iff : t.squeeze = t ↔ t.IsSpaced := by
  induction t with
  | nil => exact ⟨fun _ => ⟨nofun, by simp⟩, fun _ => rfl⟩
  | cons c t ih =>
    cases blank : isBlank c with
    | false => rw [squeeze_ink blank, isSpaced_cons_ink blank, ← ih, List.cons.injEq, and_iff_right rfl]
    | true =>
      rw [squeeze_blank blank, isSpaced_cons_blank blank, ← ih, List.cons.injEq, eq_comm]
      refine and_congr_right fun _ => ⟨fun same => ?_, fun ⟨bare, same⟩ => by rw [bare, same]⟩
      have bare : trimLeft t = t := by
        rw [← trimLeft_squeeze] at same
        rw [← same, trimLeft_trimLeft]
      rw [bare] at same
      exact ⟨bare, same⟩

/-- Lines that are joined by line feeds are cut apart again, as long as none is empty. -/
theorem lines_intercalate (each : ∀ line ∈ rows, line ≠ [] ∧ ∀ c ∈ line, c ≠ '\n' ∧ c ≠ '\r') :
    lines (['\n'].intercalate rows) = rows := by
  induction rows with
  | nil => rfl
  | cons line rows ih =>
    obtain ⟨⟨shown, unbroken⟩, others⟩ := List.forall_mem_cons.mp each
    have feedless : '\n' ∉ line := fun member => (unbroken _ member).1 rfl
    cases rows with
    | nil => rw [List.intercalate_singleton, lines_of_feedless shown feedless]
    | cons next rows =>
      have unreturned : line.getLast? ≠ some '\r' := fun last => (unbroken _ (List.mem_of_getLast? last)).2 rfl
      rw [List.intercalate_cons_cons, List.append_assoc, List.singleton_append, lines_append_feed feedless unreturned,
        ih others]

end Text

namespace RawLine

variable {line raw : Text} {c : Char}

structure IsNormal (line : Text) : Prop where
  shown : line ≠ []
  first : ∀ c ∈ line.head?, isBlank c = false
  last : ∀ c ∈ line.getLast?, isBlank c = false
  spaced : line.IsSpaced
  uncommented : ¬ lineMark <+: line
  bare : ¬ blockMark <:+: line
  ended : ∃ c ∈ line.getLast?, isEnding c = true

theorem ink_of_isEnding (ends : isEnding c = true) : isBlank c = false := by
  simp only [isEnding, Bool.or_eq_true, beq_iff_eq] at ends
  rcases ends with (rfl | rfl) | rfl <;> rfl

private theorem getLast?_collapse (last : raw.trimRight.getLast? = some c) (ink : isBlank c = false) :
    raw.collapse.getLast? = some c := by
  rw [collapse, trim, trimRight_trimLeft]
  exact getLast?_squeeze (getLast?_trimLeft last ink) ink

theorem isNormal_of_kept (kept : ofText raw = .kept line) : IsNormal line := by
  obtain ⟨rfl, bare, uncommented, c, last, ends⟩ := ofText_eq_kept_iff.mp kept
  have final := getLast?_collapse last (ink_of_isEnding ends)
  refine ⟨?_, fun d head => ?_, fun d behind => ?_, ?_, fun starts => ?_, ?_, c, final, ends⟩
  · intro none
    rw [none] at final
    cases final
  · exact isBlank_of_head?_trim (t := raw.collapse) (by rwa [trim_collapse])
  · exact isBlank_of_getLast?_trim (t := raw.collapse) (by rwa [trim_collapse])
  · exact squeeze_eq_self_iff.mp (squeeze_squeeze raw.trim)
  · exact uncommented (isWord_lineMark.prefix_of_prefix_collapse starts)
  · exact isWord_blockMark.infix_collapse_iff.not.mpr bare

namespace IsNormal

theorem trim (normal : IsNormal line) : line.trim = line :=
  trim_eq_self normal.first normal.last

theorem collapse (normal : IsNormal line) : line.collapse = line := by
  rw [Text.collapse, normal.trim, squeeze_eq_self_iff.mpr normal.spaced]

theorem unbroken (normal : IsNormal line) : ∀ c ∈ line, c ≠ '\n' ∧ c ≠ '\r' := by
  intro c member
  constructor
  · rintro rfl
    cases normal.spaced.spaces _ member rfl
  · rintro rfl
    cases normal.spaced.spaces _ member rfl

end IsNormal

/-- The lines that are kept as they are. -/
theorem ofText_eq_kept_self_iff : ofText line = .kept line ↔ IsNormal line := by
  refine ⟨isNormal_of_kept, fun normal => ?_⟩
  have left : line.trimLeft = line := by rw [← normal.trim, trimLeft_trim]
  have right : line.trimRight = line := by rw [← left, ← trim, normal.trim, left]
  rw [ofText_eq_kept_iff, normal.collapse, left, right]
  exact ⟨rfl, normal.bare, normal.uncommented, normal.ended⟩

end RawLine

namespace NormalLines

theorem ofText_of_normal {lines : List Text} (normal : ∀ line ∈ lines, RawLine.IsNormal line) :
    Source.ofText (['\n'].intercalate lines) = ⟨lines, 0⟩ := by
  have cut : Text.lines (['\n'].intercalate lines) = lines :=
    lines_intercalate fun line member => ⟨(normal line member).shown, (normal line member).unbroken⟩
  have raw : lines.map RawLine.ofText = lines.map RawLine.kept :=
    List.map_congr_left fun line member => RawLine.ofText_eq_kept_self_iff.mpr (normal line member)
  have left : (lines.map RawLine.kept).filterMap RawLine.kept? = lines := by
    rw [List.filterMap_map]
    exact List.filterMap_some
  have refused : (lines.map RawLine.kept).countP RawLine.isRefused = 0 := by
    rw [List.countP_eq_zero, List.forall_mem_map]
    exact fun line _ => nofun
  rw [Source.ofText, cut, raw, left, refused]

/-- All that is left of a text is in normal form, and joined by line feeds it is a text of which all is
left, and nothing is refused. -/
theorem source_is_normal (content : Text) :
    (∀ line ∈ (Source.ofText content).lines, RawLine.IsNormal line) ∧
      Source.ofText (['\n'].intercalate (Source.ofText content).lines) = ⟨(Source.ofText content).lines, 0⟩ := by
  have normal : ∀ line ∈ (Source.ofText content).lines, RawLine.IsNormal line := by
    intro line member
    obtain ⟨raw, -, kept⟩ := Source.mem_lines_iff.mp member
    exact RawLine.isNormal_of_kept kept
  exact ⟨normal, ofText_of_normal normal⟩

/-- Blanks are collapsed, a comment is skipped, and a line that has no end is refused. -/
example : Source.ofText "\tint  x = 5 ; \r\n// x\nx\n".toList = ⟨["int x = 5 ;".toList], 1⟩ := by
  decide +kernel

end NormalLines
end Linewise
