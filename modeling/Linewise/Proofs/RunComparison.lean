import Linewise.Proofs.RunEnding

/-! Two runs side by side, from states that are related. Where the first ends well, the second
has to end well with the same value, and the states have to be related again. A comparison can
be strict: then the second run also follows the first to the same fault. Otherwise it may do
as it likes where the first is at fault. -/

namespace Linewise

inductive Answers {α : Type} (strict : Prop) (related : α → α → Prop) : Except Fault α → Except Fault α → Prop where
  | ok {value other} (holds : related value other) : Answers strict related (.ok value) (.ok other)
  | fault {fault} : Answers strict related (.error fault) (.error fault)
  | free {fault other} (lax : ¬ strict) : Answers strict related (.error fault) other

namespace Answers

variable {α : Type} {strict : Prop} {related : α → α → Prop}

theorem refl (same : ∀ value, related value value) (result : Except Fault α) : Answers strict related result result := by
  cases result with
  | error fault => exact .fault
  | ok value => exact .ok (same value)

end Answers

namespace Run

variable {σ α β : Type} {strict : Prop} {related : σ → σ → Prop}

inductive AnswersEnding (strict : Prop) (related : σ → σ → Prop) :
    Except Fault α × σ → Except Fault α × σ → Prop where
  | ok {value state other} (holds : related state other) :
    AnswersEnding strict related (.ok value, state) (.ok value, other)
  | fault {fault state other} (holds : related state other) :
    AnswersEnding strict related (.error fault, state) (.error fault, other)
  | free {fault state ending} (lax : ¬ strict) : AnswersEnding strict related (.error fault, state) ending

def Follows (strict : Prop) (related : σ → σ → Prop) (first second : Run σ α) : Prop :=
  ∀ state other, related state other → AnswersEnding strict related (first.ending state) (second.ending other)

/-- How the ending of one run answers that of another where the relation depends on how they end. -/
inductive AnswersTo (strict : Prop) (after : α → σ → σ → Prop) (failing : σ → σ → Prop) :
    Except Fault α × σ → Except Fault α × σ → Prop where
  | ok {value state other} (holds : after value state other) :
    AnswersTo strict after failing (.ok value, state) (.ok value, other)
  | fault {fault state other} (holds : failing state other) :
    AnswersTo strict after failing (.error fault, state) (.error fault, other)
  | free {fault state ending} (lax : ¬ strict) : AnswersTo strict after failing (.error fault, state) ending

/-- From states that are related as required, the second run answers the first, and the states
are related as promised. -/
def FollowsTo (strict : Prop) (before : σ → σ → Prop) (after : α → σ → σ → Prop) (failing : σ → σ → Prop)
    (first second : Run σ α) : Prop :=
  ∀ state other, before state other → AnswersTo strict after failing (first.ending state) (second.ending other)

namespace FollowsTo

variable {before failing : σ → σ → Prop}

theorem bind {first second : Run σ α} {next goal : α → Run σ β} {middle : α → σ → σ → Prop}
    {after : β → σ → σ → Prop} (starts : FollowsTo strict before middle failing first second)
    (goes : ∀ value, FollowsTo strict (middle value) after failing (next value) (goal value)) :
    FollowsTo strict before after failing (first >>= next) (second >>= goal) := by
  intro state other holds
  rw [ending_bind, ending_bind]
  have answered := starts state other holds
  generalize first.ending state = ended, second.ending other = met at answered
  cases answered with
  | ok holds => exact goes _ _ _ holds
  | fault holds => exact .fault holds
  | free lax => exact .free lax

theorem pure {value : α} {after : α → σ → σ → Prop} (holds : ∀ state other, before state other → after value state other) :
    FollowsTo strict before after failing (Pure.pure value : Run σ α) (Pure.pure value) :=
  fun state other paired => .ok (holds state other paired)

theorem raise {fault : Fault} {after : α → σ → σ → Prop}
    (fails : ∀ state other, before state other → failing state other) :
    FollowsTo strict before after failing (Run.raise fault : Run σ α) (Run.raise fault) :=
  fun state other paired => .fault (fails state other paired)

theorem tell (event : Event) : FollowsTo strict before (fun _ => before) failing (Run.tell event) (Run.tell event) :=
  fun _ _ holds => .ok holds

/-- The line is the same on both sides, so what it is read as is known alike. -/
theorem read (line : Text) (fails : ∀ state other, before state other → failing state other) :
    FollowsTo strict before (fun statement state other => Statement.ofLine line = some statement ∧ before state other)
      failing (Run.read line) (Run.read line) := by
  intro state other holds
  cases known : Statement.ofLine line with
  | none =>
    rw [ending_read_of_none known, ending_read_of_none known]
    exact .fault (fails state other holds)
  | some statement =>
    rw [ending_read_of_some known, ending_read_of_some known]
    exact .ok ⟨rfl, holds⟩

theorem test {first second : σ → Except Fault α} (fails : ∀ state other, before state other → failing state other)
    (answers : ∀ state other, before state other → Answers strict (· = ·) (first state) (second other)) :
    FollowsTo strict before (fun _ => before) failing (Run.test first) (Run.test second) := by
  intro state other holds
  rw [ending_test, ending_test]
  have answered := answers state other holds
  generalize first state = found, second other = met at answered
  cases answered with
  | ok same =>
    cases same
    exact .ok holds
  | fault => exact .fault (fails state other holds)
  | free lax => exact .free lax

theorem step {first second : σ → Except Fault σ} {after : σ → σ → Prop}
    (fails : ∀ state other, before state other → failing state other)
    (answers : ∀ state other, before state other → Answers strict after (first state) (second other)) :
    FollowsTo strict before (fun _ => after) failing (Run.step first) (Run.step second) := by
  intro state other holds
  rw [ending_step, ending_step]
  have answered := answers state other holds
  generalize first state = found, second other = met at answered
  cases answered with
  | ok holds => exact .ok holds
  | fault => exact .fault (fails state other holds)
  | free lax => exact .free lax

theorem forM {items : List α} {first second : α → Run σ Unit}
    (each : ∀ item ∈ items, FollowsTo strict before (fun _ => before) failing (first item) (second item)) :
    FollowsTo strict before (fun _ => before) failing (items.forM first) (items.forM second) := by
  induction items with
  | nil => exact pure fun _ _ holds => holds
  | cons item items ih =>
    exact bind (each item (by simp)) fun _ => ih fun other member => each other (by simp [member])

/-- One relation may hold throughout, wherever the runs stop. -/
theorem follows {first second : Run σ α} (starts : ∀ state other, related state other → before state other)
    (stops : ∀ state other, failing state other → related state other)
    (followed : FollowsTo strict before (fun _ => related) failing first second) : Follows strict related first second := by
  intro state other holds
  have answered := followed state other (starts state other holds)
  generalize first.ending state = ended, second.ending other = met at answered
  cases answered with
  | ok holds => exact .ok holds
  | fault holds => exact .fault (stops _ _ holds)
  | free lax => exact .free lax

end FollowsTo

namespace Follows

/-- A comparison by one relation, as one whose relation could change. -/
theorem followsTo {first second : Run σ α} (follows : Follows strict related first second) :
    FollowsTo strict related (fun _ => related) related first second := by
  intro state other holds
  have answered := follows state other holds
  generalize first.ending state = ended, second.ending other = met at answered
  cases answered with
  | ok holds => exact .ok holds
  | fault holds => exact .fault holds
  | free lax => exact .free lax

theorem bind {first second : Run σ α} {next after : α → Run σ β} (starts : Follows strict related first second)
    (goes : ∀ value, Follows strict related (next value) (after value)) :
    Follows strict related (first >>= next) (second >>= after) :=
  (FollowsTo.bind starts.followsTo fun value => (goes value).followsTo).follows (fun _ _ => id) fun _ _ => id

theorem tell (event : Event) : Follows strict related (Run.tell event : Run σ Unit) (Run.tell event) :=
  fun _ _ holds => .ok holds

theorem test {first second : σ → Except Fault α}
    (answers : ∀ state other, related state other → Answers strict (· = ·) (first state) (second other)) :
    Follows strict related (Run.test first) (Run.test second) :=
  (FollowsTo.test (fun _ _ => id) answers).follows (fun _ _ => id) fun _ _ => id

theorem step {first second : σ → Except Fault σ}
    (answers : ∀ state other, related state other → Answers strict related (first state) (second other)) :
    Follows strict related (Run.step first) (Run.step second) :=
  (FollowsTo.step (fun _ _ => id) answers).follows (fun _ _ => id) fun _ _ => id

theorem forM {items : List α} {first second : α → Run σ Unit}
    (each : ∀ item ∈ items, Follows strict related (first item) (second item)) :
    Follows strict related (items.forM first) (items.forM second) :=
  (FollowsTo.forM fun item member => (each item member).followsTo).follows (fun _ _ => id) fun _ _ => id

/-- What the first run reaches, the second does too. -/
theorem of_ok {first second : Run σ α} (follows : Follows strict related first second) {state other last : σ}
    {value : α} (holds : related state other) (ended : first.ending state = (.ok value, last)) :
    ∃ met, second.ending other = (.ok value, met) ∧ related last met := by
  have answered := follows state other holds
  rw [ended] at answered
  generalize second.ending other = met at answered
  cases answered with
  | ok holds => exact ⟨_, rfl, holds⟩

/-- Under a strict comparison the runs end alike, be it at a fault. -/
theorem same {first second : Run σ α} (follows : Follows True related first second) {state other : σ}
    (holds : related state other) :
    (second.ending other).1 = (first.ending state).1 ∧ related (first.ending state).2 (second.ending other).2 := by
  have answered := follows state other holds
  generalize first.ending state = ended, second.ending other = met at answered
  cases answered with
  | ok holds => exact ⟨rfl, holds⟩
  | fault holds => exact ⟨rfl, holds⟩
  | free lax => exact absurd trivial lax

end Follows
end Run
end Linewise
