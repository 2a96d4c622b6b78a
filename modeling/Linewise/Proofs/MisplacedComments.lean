import Linewise.Proofs.RawLines

/-! Which comments are refused, and which are left. A block comment is refused wherever it stands, in
quotes too. A comment up to the end of its line is looked for in front of the line only, so one that
follows a statement is left with it where it ends as statements do. -/

namespace Linewise.MisplacedComments
open Text RawLine

/-- No block comment is left and no line that is a comment, for these are skipped or refused, however
they end. A comment behind a statement is left of every line that is not refused for something else. -/
theorem comments_in_front_are_refused (content : Text) :
    (∀ line ∈ content.lines, RawLine.ofText line = .refused .comment ↔
      line.trim ≠ [] ∧ ¬ lineMark <+: line ∧ (blockMark <:+: line ∨ lineMark <+: line.trimLeft)) ∧
    (∀ line ∈ (Source.ofText content).lines, ¬ blockMark <:+: line ∧ ¬ lineMark <+: line) ∧
    ((∃ line ∈ (Source.ofText content).lines, Unquoted lineMark line) ↔
      ∃ line ∈ content.lines, Unquoted lineMark line ∧ ¬ blockMark <:+: line ∧ ¬ lineMark <+: line.trimLeft ∧
        ∃ c ∈ line.trimRight.getLast?, isEnding c = true) := by
  refine ⟨fun _ _ => ofText_eq_refused_comment_iff, ?_, ?_⟩
  · intro line member
    obtain ⟨raw, -, kept⟩ := Source.mem_lines_iff.mp member
    obtain ⟨rfl, bare, uncommented, -⟩ := ofText_eq_kept_iff.mp kept
    refine ⟨isWord_blockMark.infix_collapse_iff.not.mpr bare, fun starts => ?_⟩
    exact uncommented (isWord_lineMark.prefix_of_prefix_collapse starts)
  · constructor
    · rintro ⟨line, member, unquoted⟩
      obtain ⟨raw, there, kept⟩ := Source.mem_lines_iff.mp member
      obtain ⟨rfl, rest⟩ := ofText_eq_kept_iff.mp kept
      exact ⟨raw, there, isWord_lineMark.unquoted_collapse_iff.mp unquoted, rest⟩
    · rintro ⟨raw, there, unquoted, rest⟩
      have kept := ofText_eq_kept_iff.mpr ⟨rfl, rest⟩
      exact ⟨raw.collapse, Source.mem_lines_iff.mpr ⟨raw, there, kept⟩, isWord_lineMark.unquoted_collapse_iff.mpr unquoted⟩

/-- A comment behind a statement that ends as a statement does. -/
def trailing : Text :=
  "int a; // c;".toList

theorem trailing_is_kept :
    trailing.lines = [trailing] ∧ trailing.trim ≠ [] ∧ ¬ lineMark <+: trailing ∧ Unquoted lineMark trailing ∧
      RawLine.ofText trailing = .kept trailing ∧ Source.ofText trailing = ⟨[trailing], 0⟩ := by
  have alone : trailing.lines = [trailing] := by decide +kernel
  have behind : Unquoted lineMark trailing := ⟨"int a; ".toList, " c;".toList, by decide, by decide⟩
  have kept : RawLine.ofText trailing = .kept trailing := by decide +kernel
  exact ⟨alone, by decide, by decide, behind, kept, by decide +kernel⟩

end Linewise.MisplacedComments
