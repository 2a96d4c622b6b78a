import Linewise.Statement
import Mathlib.Algebra.Ring.Int.Defs

/-! Lines are weighed by the blocks they open and close, so that the depth a body has reached
depends on its lines alone. A body ends where that depth first comes to nothing, and so no
body is the beginning of another. -/

namespace Linewise

namespace Statement

def weight : Statement → Int
  | blockHead _ => 1
  | blockEnd => -1
  | methodHead _ _ | declaration | assignment | call _ _ | ret => 0

def isSimple : Statement → Bool
  | declaration | assignment | call _ _ | ret => true
  | methodHead _ _ | blockHead _ | blockEnd => false

def isMethodHead : Statement → Bool
  | methodHead _ _ => true
  | declaration | assignment | call _ _ | blockHead _ | blockEnd | ret => false

end Statement

/-- A line that is no statement weighs nothing. -/
def weightOf (line : Text) : Int :=
  match Statement.ofLine line with
  | none => 0
  | some statement => statement.weight

def depthFrom (start : Int) (lines : List Text) : Int :=
  start + (lines.map weightOf).sum

def IsInner (line : Text) : Prop :=
  ∃ statement, Statement.ofLine line = some statement ∧ statement.isMethodHead = false

/-- The lines close all the blocks that are open at a depth, and the last of them closes the
outermost. -/
structure ClosesFrom (start : Int) (lines : List Text) : Prop where
  inner : ∀ line ∈ lines, IsInner line
  within : ∀ before line after, lines = before ++ line :: after → 1 ≤ depthFrom start before
  closed : depthFrom start lines = 0

theorem weightOf_of_ofLine {line : Text} {statement : Statement}
    (known : Statement.ofLine line = some statement) : weightOf line = statement.weight := by
  simp [weightOf, known]

@[simp] theorem depthFrom_nil (start : Int) : depthFrom start [] = start := by
  simp [depthFrom]

@[simp] theorem depthFrom_cons (start : Int) (line : Text) (lines : List Text) :
    depthFrom start (line :: lines) = depthFrom (start + weightOf line) lines := by
  simp [depthFrom, Int.add_assoc]

theorem depthFrom_append (start : Int) (before after : List Text) :
    depthFrom start (before ++ after) = depthFrom (depthFrom start before) after := by
  simp [depthFrom, Int.add_assoc]

namespace ClosesFrom

theorem nil_iff {start : Int} : ClosesFrom start [] ↔ start = 0 := by
  constructor
  · intro closes
    simpa using closes.closed
  · rintro rfl
    exact ⟨by simp, by simp, by simp⟩

theorem cons_iff {start : Int} {line : Text} {lines : List Text} :
    ClosesFrom start (line :: lines) ↔
      1 ≤ start ∧ IsInner line ∧ ClosesFrom (start + weightOf line) lines := by
  constructor
  · intro closes
    refine ⟨?_, closes.inner line (by simp), ?_, ?_, ?_⟩
    · simpa using closes.within [] line lines rfl
    · intro other member
      exact closes.inner other (by simp [member])
    · intro before other after cut
      simpa using closes.within (line :: before) other after (by simp [cut])
    · simpa using closes.closed
  · rintro ⟨positive, inner, closes⟩
    refine ⟨?_, ?_, ?_⟩
    · intro other member
      rcases List.mem_cons.mp member with rfl | member
      · exact inner
      · exact closes.inner other member
    · intro before other after cut
      cases before with
      | nil => simpa using positive
      | cons first before =>
        obtain ⟨rfl, rest⟩ := List.cons.inj cut
        simpa using closes.within before other after rest
    · simpa using closes.closed

/-- From one depth on there is only one place where the blocks are closed. -/
theorem eq_of_append {start : Int} {first second after rest : List Text}
    (closes : ClosesFrom start first) (other : ClosesFrom start second)
    (same : first ++ after = second ++ rest) : first = second ∧ after = rest := by
  induction first generalizing start second with
  | nil =>
    cases second with
    | nil => exact ⟨rfl, same⟩
    | cons line second =>
      have ended := nil_iff.mp closes
      have positive := (cons_iff.mp other).1
      omega
  | cons line first ih =>
    cases second with
    | nil =>
      have ended := nil_iff.mp other
      have positive := (cons_iff.mp closes).1
      omega
    | cons found second =>
      obtain ⟨rfl, tails⟩ := List.cons.inj same
      obtain ⟨rfl, rests⟩ := ih (cons_iff.mp closes).2.2 (cons_iff.mp other).2.2 tails
      exact ⟨rfl, rests⟩

/-- Lines that close some blocks are the brace of the outermost, or one that leaves it open and
then such lines again. -/
theorem induct {motive : (depth : Nat) → (lines : List Text) → 1 ≤ depth → ClosesFrom depth lines → Prop}
    (last : ∀ line (closes : ClosesFrom (1 : Nat) [line]), Statement.ofLine line = some .blockEnd →
      motive 1 [line] (Nat.le_refl 1) closes)
    (inner : ∀ (depth next : Nat) line rest statement (positive : 1 ≤ depth)
      (closes : ClosesFrom depth (line :: rest)) (running : 1 ≤ next) (later : ClosesFrom next rest),
      Statement.ofLine line = some statement → statement.isMethodHead = false →
        (next : Int) = depth + statement.weight → motive next rest running later →
        motive depth (line :: rest) positive closes)
    (depth : Nat) (lines : List Text) (positive : 1 ≤ depth) (closes : ClosesFrom depth lines) :
    motive depth lines positive closes := by
  induction lines generalizing depth with
  | nil =>
    have ended := nil_iff.mp closes
    omega
  | cons line rest ih =>
    obtain ⟨-, ⟨statement, known, within⟩, later⟩ := cons_iff.mp closes
    rw [weightOf_of_ofLine known] at later
    cases rest with
    | nil =>
      -- the line that leads to nothing can only be a brace, and it meets the depth of one
      have ended := nil_iff.mp later
      cases statement with
      | blockEnd =>
        simp only [Statement.weight] at ended
        obtain rfl : depth = 1 := by omega
        exact last line closes known
      | declaration | assignment | call _ _ | blockHead _ | ret | methodHead _ _ =>
        simp only [Statement.weight] at ended
        omega
    | cons next others =>
      have above := (cons_iff.mp later).1
      obtain ⟨reached, same⟩ := Int.eq_ofNat_of_zero_le (show 0 ≤ depth + statement.weight by omega)
      rw [same] at later
      have running : 1 ≤ reached := by omega
      exact inner depth reached line _ statement positive closes running later known within same.symm (ih reached running later)

/-- The last line of a body is the brace that closes it. -/
theorem exists_concat {body : List Text} (closes : ClosesFrom 1 body) :
    ∃ front last, body = front ++ [last] ∧ depthFrom 1 front = 1 ∧ Statement.ofLine last = some .blockEnd := by
  rcases List.eq_nil_or_concat body with rfl | ⟨front, last, rfl⟩
  · cases closes.closed
  · have within := closes.within front last [] (List.concat_eq_append)
    have closed := closes.closed
    obtain ⟨statement, known, _⟩ := closes.inner last (by simp)
    rw [List.concat_eq_append, depthFrom_append, depthFrom_cons, depthFrom_nil, weightOf_of_ofLine known] at closed
    refine ⟨front, last, List.concat_eq_append, ?_⟩
    cases statement with
    | blockEnd =>
      simp only [Statement.weight] at closed
      exact ⟨by omega, known⟩
    | methodHead _ _ | declaration | assignment | call _ _ | blockHead _ | ret =>
      simp only [Statement.weight] at closed
      omega

end ClosesFrom
end Linewise
