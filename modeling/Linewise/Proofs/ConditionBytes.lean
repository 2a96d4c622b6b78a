import Linewise.Proofs.LineWords
import Mathlib.Data.List.Forall2

/-! A text is kept as the bytes of its characters, and operators can be looked for byte by byte. The
scan takes no character apart: the mark of an operator is one byte, and no other character has
this byte among its own. So what stands between the operators it finds is what is found when whole
characters are read. -/

namespace Linewise

inductive Operator
  | both
  | either
  deriving DecidableEq, Repr

namespace Operator

def mark : Operator → Char
  | both => '&'
  | either => '|'

def text (operator : Operator) : Text :=
  [operator.mark, operator.mark]

def byte : Operator → UInt8
  | both => 0x26
  | either => 0x7c

theorem isOperator_iff {c d : Char} :
    Check.isOperator c d = true ↔ ∃ operator : Operator, c = operator.mark ∧ d = operator.mark := by
  simp only [Check.isOperator, Bool.or_eq_true, Bool.and_eq_true, beq_iff_eq]
  constructor
  · rintro (pair | pair)
    · exact ⟨both, pair⟩
    · exact ⟨either, pair⟩
  · rintro ⟨_ | _, pair⟩
    · exact Or.inl pair
    · exact Or.inr pair

end Operator

namespace Text

variable {c : Char} {t : Text}

def bytes (t : Text) : List UInt8 :=
  t.flatMap String.utf8EncodeChar

theorem bytes_append (t rest : Text) : bytes (t ++ rest) = t.bytes ++ rest.bytes :=
  List.flatMap_append

theorem bytes_cons (c : Char) (t : Text) : bytes (c :: t) = String.utf8EncodeChar c ++ t.bytes :=
  List.flatMap_cons

theorem length_bytes (t : Text) : t.bytes.length = (String.ofList t).utf8ByteSize := by
  rw [← String.size_toByteArray, String.toByteArray_ofList]
  exact List.size_toByteArray.symm

/-- All bytes of a longer character are above those that are characters by themselves. -/
theorem le_toNat_of_mem_utf8EncodeChar {b : UInt8} (long : 0x7f < c.val.toNat)
    (member : b ∈ String.utf8EncodeChar c) : 0x80 ≤ b.toNat := by
  have apart : ¬ c.val.toNat ≤ 0x7f := by omega
  have continues (n : Nat) : 0x80 ≤ (UInt8.ofNat (n % 0x40 + 0x80)).toNat := by
    rw [UInt8.toNat_ofNat']
    omega
  simp only [String.utf8EncodeChar, if_neg apart] at member
  split at member
  · simp only [List.mem_cons, List.not_mem_nil, or_false] at member
    rcases member with rfl | rfl
    · rw [UInt8.toNat_ofNat']
      omega
    · exact continues _
  · split at member
    · simp only [List.mem_cons, List.not_mem_nil, or_false] at member
      rcases member with rfl | rfl | rfl
      · rw [UInt8.toNat_ofNat']
        omega
      · exact continues _
      · exact continues _
    · simp only [List.mem_cons, List.not_mem_nil, or_false] at member
      rcases member with rfl | rfl | rfl | rfl
      · rw [UInt8.toNat_ofNat']
        omega
      · exact continues _
      · exact continues _
      · exact continues _

end Text

namespace Operator

theorem utf8EncodeChar_mark (operator : Operator) : String.utf8EncodeChar operator.mark = [operator.byte] := by
  cases operator <;> rfl

/-- The byte of a mark is found in the mark itself only. -/
theorem mem_utf8EncodeChar_iff {operator : Operator} {c : Char} :
    operator.byte ∈ String.utf8EncodeChar c ↔ c = operator.mark := by
  constructor
  · intro member
    have low : operator.byte.toNat < 0x80 := by cases operator <;> decide
    have short : c.val.toNat ≤ 0x7f := by
      by_contra long
      have high := Text.le_toNat_of_mem_utf8EncodeChar (by omega) member
      omega
    rw [String.utf8EncodeChar, if_pos short, List.mem_singleton] at member
    have same : operator.byte.toNat = c.toNat := by
      rw [member, UInt8.toNat_ofNat']
      exact Nat.mod_eq_of_lt (by omega)
    have spelled : operator.byte.toNat = operator.mark.toNat := by cases operator <;> rfl
    exact Char.toNat_inj.mp (same.symm.trans spelled)
  · rintro rfl
    rw [utf8EncodeChar_mark]
    exact List.mem_singleton_self _

end Operator

namespace Check
open Text

def isOperatorBytes (b d : UInt8) : Bool :=
  b == 0x26 && d == 0x26 || b == 0x7c && d == 0x7c

/-- From where to where the pieces go that are found in the bytes that are left. The current piece
goes from `start`, and `index` bytes have been passed. -/
def spans (start index : Nat) : List UInt8 → List (Nat × Nat)
  | [] => [(start, index)]
  | [_] => [(start, index + 1)]
  | b :: d :: rest =>
    if isOperatorBytes b d then (start, index) :: spans (index + 2) (index + 2) rest
    else spans start (index + 1) (d :: rest)

def byteSpans (t : Text) : List (Nat × Nat) :=
  spans 0 0 t.bytes

/-- The bytes from one place to another are those of the piece, and neither place is inside a
character. -/
structure IsSlice (t : Text) (span : Nat × Nat) (piece : Text) : Prop where
  ordered : span.1 ≤ span.2
  starts : String.Pos.Raw.IsValid (String.ofList t) ⟨span.1⟩
  ends : String.Pos.Raw.IsValid (String.ofList t) ⟨span.2⟩
  holds : t.bytes.extract span.1 span.2 = piece.bytes

theorem isOperatorBytes_iff {b d : UInt8} :
    isOperatorBytes b d = true ↔ ∃ operator : Operator, b = operator.byte ∧ d = operator.byte := by
  simp only [isOperatorBytes, Bool.or_eq_true, Bool.and_eq_true, beq_iff_eq]
  constructor
  · rintro (pair | pair)
    · exact ⟨.both, pair⟩
    · exact ⟨.either, pair⟩
  · rintro ⟨_ | _, pair⟩
    · exact Or.inl pair
    · exact Or.inr pair

/-- A part of a text is a slice of it. -/
theorem isSlice_of_append (before piece after : Text) :
    IsSlice (before ++ piece ++ after) (before.bytes.length, (before ++ piece).bytes.length) piece := by
  have place (front rest : Text) : String.Pos.Raw.IsValid (String.ofList (front ++ rest)) ⟨front.bytes.length⟩ := by
    rw [String.Pos.Raw.isValid_ofList]
    exact ⟨front.length, by rw [List.take_left, length_bytes]⟩
  constructor
  · simp [bytes_append]
  · rw [List.append_assoc]
    exact place before (piece ++ after)
  · exact place (before ++ piece) after
  · simp [bytes_append, List.extract]

/-- Bytes that are no marks are passed one after another. -/
theorem spans_append {word : List UInt8} (unmarked : ∀ operator : Operator, operator.byte ∉ word) (start index : Nat)
    (rest : List UInt8) : spans start index (word ++ rest) = spans start (index + word.length) rest := by
  induction word generalizing index with
  | nil => rfl
  | cons b word ih =>
    have later (operator : Operator) : operator.byte ∉ word :=
      fun member => unmarked operator (List.mem_cons_of_mem b member)
    have single (d : UInt8) : isOperatorBytes b d = false := by
      rw [← Bool.not_eq_true, isOperatorBytes_iff]
      rintro ⟨operator, rfl, -⟩
      exact unmarked operator List.mem_cons_self
    have passed : spans start index (b :: (word ++ rest)) = spans start (index + 1) (word ++ rest) := by
      cases word ++ rest with
      | nil => rfl
      | cons d bytes => rw [spans, single, if_neg Bool.false_ne_true]
    rw [List.cons_append, passed, ih later, List.length_cons, Nat.add_assoc, Nat.add_comm 1]

/-- A character is passed as a whole where no operator starts with it. -/
theorem spans_bytes_cons {c : Char} {rest : Text} (single : ∀ d, rest.head? = some d → isOperator c d = false)
    (start index : Nat) :
    spans start index (bytes (c :: rest)) = spans start (index + (bytes [c]).length) rest.bytes := by
  have whole : bytes (c :: rest) = bytes [c] ++ rest.bytes := bytes_append [c] rest
  by_cases marked : ∃ operator : Operator, c = operator.mark
  · obtain ⟨operator, rfl⟩ := marked
    have one : bytes [operator.mark] = [operator.byte] := by
      rw [bytes_cons, operator.utf8EncodeChar_mark]
      rfl
    rw [whole, one]
    cases rest with
    | nil => rfl
    | cons d rest =>
      obtain ⟨b, others, encoded⟩ := List.exists_cons_of_ne_nil (String.utf8EncodeChar_ne_nil (c := d))
      have apart : isOperatorBytes operator.byte b = false := by
        rw [← Bool.not_eq_true, isOperatorBytes_iff]
        rintro ⟨other, first, second⟩
        have same : operator = other := by cases operator <;> cases other <;> first | rfl | cases first
        subst same
        have next : d = operator.mark := by
          rw [← Operator.mem_utf8EncodeChar_iff, encoded, second]
          exact List.mem_cons_self
        have paired := Operator.isOperator_iff.mpr ⟨operator, rfl, next⟩
        rw [single d rfl] at paired
        cases paired
      rw [bytes_cons, encoded, List.singleton_append, List.cons_append, spans, apart, if_neg Bool.false_ne_true]
      rfl
  · rw [whole]
    apply spans_append
    intro operator member
    rw [bytes_cons, bytes, List.flatMap_nil, List.append_nil, Operator.mem_utf8EncodeChar_iff] at member
    exact marked ⟨operator, member⟩

private theorem length_bytes_concat (t : Text) (c : Char) :
    t.bytes.length + (bytes [c]).length = (t ++ [c]).bytes.length := by
  rw [bytes_append, List.length_append]

private theorem spans_bytes_operator (operator : Operator) (start : Nat) (t rest : Text) :
    spans start t.bytes.length (bytes (operator.mark :: operator.mark :: rest)) =
      (start, t.bytes.length) ::
        spans (t ++ operator.text).bytes.length (t ++ operator.text).bytes.length rest.bytes := by
  have long : (t ++ operator.text).bytes.length = t.bytes.length + 2 := by
    rw [bytes_append, List.length_append, Operator.text, bytes_cons, bytes_cons, operator.utf8EncodeChar_mark]
    rfl
  rw [bytes_cons, bytes_cons, operator.utf8EncodeChar_mark, List.singleton_append, List.singleton_append, spans,
    if_pos (isOperatorBytes_iff.mpr ⟨operator, rfl, rfl⟩), long]

private theorem isSlice_of_spans (before piece rest : Text) :
    List.Forall₂ (IsSlice (before ++ piece ++ rest))
      (spans before.bytes.length (before ++ piece).bytes.length rest.bytes) ((atoms rest).modifyHead (piece ++ ·)) := by
  -- what is left to read gets shorter, behind what has been passed and the piece so far
  induction rest using atoms.induct generalizing before piece with
  | case1 =>
    have slice := isSlice_of_append before piece []
    exact .cons (by simpa using slice) .nil
  | case2 c =>
    have slice := isSlice_of_append before (piece ++ [c]) []
    have none : ∀ d, ([] : Text).head? = some d → isOperator c d = false := by
      intro d head
      cases head
    rw [spans_bytes_cons none, length_bytes_concat, List.append_assoc before]
    rw [List.append_nil] at slice
    exact .cons slice .nil
  | case3 c d rest paired ih =>
    obtain ⟨operator, rfl, rfl⟩ := Operator.isOperator_iff.mp paired
    have slice := isSlice_of_append before piece (operator.mark :: operator.mark :: rest)
    have later := ih (before ++ piece ++ operator.text) []
    have same : (atoms rest).modifyHead ([] ++ ·) = atoms rest := congrFun List.modifyHead_id _
    rw [List.append_nil, same, List.append_assoc] at later
    rw [atoms, if_pos paired, spans_bytes_operator]
    exact .cons (by simpa using slice) later
  | case4 c d rest single none ih => exact absurd none (cuts_atoms (d :: rest)).ne_nil
  | case5 c d rest single atom others pieces ih =>
    have apart : ∀ e, (d :: rest).head? = some e → isOperator c e = false := by
      intro e head
      cases head
      simpa using single
    have later := ih before (piece ++ [c])
    rw [spans_bytes_cons apart, length_bytes_concat, atoms, if_neg single, pieces]
    rw [pieces] at later
    simpa using later

/-- Scanned by bytes, a text is cut inside none of its characters, and into its atoms. -/
theorem isSlice_byteSpans (t : Text) : List.Forall₂ (IsSlice t) (byteSpans t) (atoms t) := by
  have slices := isSlice_of_spans [] [] t
  have same : (atoms t).modifyHead ([] ++ ·) = atoms t := congrFun List.modifyHead_id _
  rwa [same] at slices

example : byteSpans ['é', '&', '&', '&', '→'] = [(0, 2), (4, 8)] := by decide

end Check
end Linewise
