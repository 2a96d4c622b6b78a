import Linewise.Proofs.StatementPrefix
import Linewise.Run

/-! The kinds of statements exclude each other. The first word of a line and the character behind
it leave one kind that the line can be of, whichever reader looks at them. So the order in which the
readers are tried decides nothing, and a reader that succeeds is the one that is asked. -/

namespace Linewise
open Text

namespace Text

variable {t word rest inner : Text} {mark : Char}

theorem rawName?_of_afterWord? (raw : isRawName word = true) (found : t.afterWord? word = some rest) :
    t.rawName? = some (word, rest) := by
  obtain ⟨whole, stops⟩ := afterWord?_eq_some_iff.mp found
  exact rawName?_eq_some_iff.mpr ⟨whole, raw, stops⟩

theorem head?_of_bracketed? (found : t.bracketed? mark = some inner) : t.trimLeft.head? = some '(' := by
  unfold bracketed? at found
  split at found
  · cases found
  · next rest opening =>
    rw [after?_eq_some_iff.mp opening]
    rfl

end Text

namespace Kind

def readIn (order : List Kind) (line : Text) : Except Fault Statement :=
  match order.findSome? (read? line.trim) with
  | none => .error (.unrecognizedLine line.trim)
  | some statement => .ok statement

/-- The one kind that a line can be of, judged by its front. -/
def ofFront (line : Text) : Kind :=
  match line.rawName? with
  | none => blockEnd
  | some (word, rest) =>
    if word = Keyword.void then methodHead
    else if word = Keyword.branch ∨ word = Keyword.loop then blockHead
    else if word = Keyword.ret then ret
    else if isReserved word then declaration
    else if rest.trimLeft.head? = some '=' then assignment
    else call

end Kind

namespace Statement

variable {t line word rest : Text} {statement : Statement}

theorem ne_of_isReserved (free : isReserved word = false) {other : Text} (reserved : isReserved other = true) :
    word ≠ other := by
  rintro rfl
  rw [free] at reserved
  cases reserved

theorem ofFront_of_ownName? (own : ownName? t = some (word, rest)) :
    Kind.ofFront t = if rest.trimLeft.head? = some '=' then .assignment else .call := by
  obtain ⟨named, free⟩ := ownName?_eq_some_iff.mp own
  have apart {other : Text} (reserved : isReserved other = true) : word ≠ other := ne_of_isReserved free reserved
  have loopless : ¬ (word = Keyword.branch ∨ word = Keyword.loop) := not_or.mpr ⟨apart (by decide), apart (by decide)⟩
  rw [Kind.ofFront, named]
  dsimp only
  rw [if_neg (apart (by decide)), if_neg loopless, if_neg (apart (by decide)), free, if_neg Bool.false_ne_true]

theorem ofFront_of_typed? {isFinal : Bool} {ty : Ty} (typed : typed? t = some (isFinal, ty, rest)) :
    Kind.ofFront t = .declaration := by
  rcases typed?_cases typed with ⟨-, -, read⟩ | ⟨-, after, middle, final, -, -⟩
  · obtain ⟨behind, whole, blanks⟩ := afterType?_eq_some_iff.mp read
    have named : t.rawName? = some (ty.keyword, behind) :=
      rawName?_eq_some_iff.mpr ⟨whole, VariableLine.isRawName_keyword ty, startsWord_of_afterBlanks? blanks⟩
    rw [Kind.ofFront, named]
    cases ty <;> rfl
  · rw [Kind.ofFront, rawName?_of_afterWord? VariableLine.isRawName_final final]
    rfl

/-- Whatever a line is, its front says so. -/
theorem ofFront_of_fits (fits : Fits line.trim statement) : Kind.ofFront line.trim = .of statement := by
  cases statement with
  | methodHead name parameters =>
    obtain ⟨rest, worded, -⟩ := Option.bind_eq_some_iff.mp fits
    rw [trim_trim] at worded
    rw [Kind.ofFront, rawName?_of_afterWord? (by decide) worded]
    rfl
  | declaration =>
    obtain ⟨isFinal, ty, rest, typed⟩ := typed?_of_isDeclaration fits
    exact ofFront_of_typed? typed
  | assignment =>
    obtain ⟨name, rest, own, sign⟩ := ownName?_of_isAssignment fits
    rw [ofFront_of_ownName? own, if_pos sign]
    rfl
  | call callee arguments =>
    obtain ⟨⟨name, rest⟩, own, found⟩ := Option.bind_eq_some_iff.mp fits
    obtain ⟨inner, bracketed, -⟩ := Option.bind_eq_some_iff.mp found
    rw [trim_trim] at own
    rw [ofFront_of_ownName? own, head?_of_bracketed? bracketed]
    rfl
  | blockHead condition =>
    obtain ⟨rest, worded, -⟩ := Option.bind_eq_some_iff.mp fits
    rw [trim_trim] at worded
    rcases Option.or_eq_some_iff.mp worded with worded | ⟨-, worded⟩
    · rw [Kind.ofFront, rawName?_of_afterWord? (by decide) worded]
      rfl
    · rw [Kind.ofFront, rawName?_of_afterWord? (by decide) worded]
      rfl
  | blockEnd =>
    rw [show line.trim = ['}'] from fits]
    rfl
  | ret =>
    rw [show line.trim = Keyword.ret ++ [';'] from fits]
    rfl

/-- A line is the statement that it fits, as it fits no other. -/
theorem findSome?_read?_eq_some_iff {order : List Kind} (complete : ∀ kind, kind ∈ order) :
    order.findSome? (Kind.read? line.trim) = some statement ↔ Fits line.trim statement := by
  constructor
  · exact fits_of_findSome?
  · intro fits
    have here : Kind.read? line.trim (.of statement) = some statement := read?_eq_some_iff.mpr ⟨rfl, fits⟩
    cases found : order.findSome? (Kind.read? line.trim) with
    | none =>
      rw [List.findSome?_eq_none_iff.mp found _ (complete _)] at here
      cases here
    | some other =>
      obtain ⟨kind, -, read⟩ := List.exists_of_findSome?_eq_some found
      obtain ⟨rfl, holds⟩ := read?_eq_some_iff.mp read
      rw [← ofFront_of_fits holds, ofFront_of_fits fits, here] at read
      rw [read]

theorem ofLine_eq_some_iff : ofLine line = some statement ↔ Fits line.trim statement := by
  rw [ofLine, ofTrimmed_eq]
  exact findSome?_read?_eq_some_iff Kind.mem_all

end Statement

namespace StatementKinds
open Statement

/-- At most one reader takes a line. So all orders in which they can be tried give the same statement,
or the same fault, and the parts of a statement can be read without asking for its kind. -/
theorem order_of_kinds_is_free (line : Text) :
    (∀ first second : Kind, (first.read? line.trim).isSome → (second.read? line.trim).isSome → first = second) ∧
      (∀ order : List Kind, (∀ kind, kind ∈ order) →
        ∀ {σ : Type} (state : σ), Kind.readIn order line = (Run.read line state).result) ∧
      (∀ name parameters, methodHead? line = some (name, parameters) ↔ ofLine line = some (.methodHead name parameters)) ∧
      (∀ callee arguments, call? line = some (callee, arguments) ↔ ofLine line = some (.call callee arguments)) ∧
      ∀ condition, blockHead? line = some condition ↔ ofLine line = some (.blockHead condition) := by
  refine ⟨?_, ?_, ?_, ?_, ?_⟩
  · intro first second one other
    obtain ⟨statement, read⟩ := Option.isSome_iff_exists.mp one
    obtain ⟨rest, reread⟩ := Option.isSome_iff_exists.mp other
    obtain ⟨rfl, fits⟩ := read?_eq_some_iff.mp read
    obtain ⟨rfl, holds⟩ := read?_eq_some_iff.mp reread
    rw [← ofFront_of_fits fits, ← ofFront_of_fits holds]
  · intro order complete σ state
    have same : order.findSome? (Kind.read? line.trim) = ofLine line := by
      apply Option.ext
      intro statement
      rw [findSome?_read?_eq_some_iff complete, ofLine_eq_some_iff]
    rw [Kind.readIn, same, Run.read]
    cases ofLine line <;> rfl
  · intro name parameters
    rw [ofLine_eq_some_iff, Fits, methodHead?, methodHead?, trim_trim]
  · intro callee arguments
    rw [ofLine_eq_some_iff, Fits, call?, call?, trim_trim]
  · intro condition
    rw [ofLine_eq_some_iff, Fits, blockHead?, blockHead?, trim_trim]

/-- There are lines of every kind, and the words of one kind may well stand in lines of another. -/
example : ["void f (int a) \x7b", "final int voidx = f;", "ifx = a;", "while1();", "if (final) \x7b", "\x7d", "return;"].map
    (fun line => (ofLine line.toList).map Kind.of) = Kind.all.map some := by
  decide +kernel

end StatementKinds
end Linewise
