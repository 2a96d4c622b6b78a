import Linewise.Proofs.RunEnding

/-! Assertions about the states that runs start and end in. A fault is an ending of its own
here, so that one judgement says what a run may find and what it leaves where it stops. -/

namespace Linewise.Run

variable {σ α β : Type}

/-- From a state as required, a run ends well as promised or at a fault as allowed. -/
def Meets (run : Run σ α) (before : σ → Prop) (after : α → σ → Prop) (failing : Fault → σ → Prop) : Prop :=
  ∀ state, before state →
    match run.ending state with
    | (.ok value, last) => after value last
    | (.error fault, last) => failing fault last

namespace Meets

variable {before : σ → Prop} {failing : Fault → σ → Prop}

theorem of_ok {run : Run σ α} {after : α → σ → Prop} (meets : Meets run before after failing)
    {state last : σ} {value : α} (holds : before state) (ended : run.ending state = (.ok value, last)) :
    after value last := by
  have met := meets state holds
  rwa [ended] at met

theorem of_error {run : Run σ α} {after : α → σ → Prop} (meets : Meets run before after failing)
    {state last : σ} {fault : Fault} (holds : before state) (ended : run.ending state = (.error fault, last)) :
    failing fault last := by
  have met := meets state holds
  rwa [ended] at met

theorem of_result_error {run : Run σ α} {after : α → σ → Prop} (meets : Meets run before after failing)
    {state : σ} {fault : Fault} (holds : before state) (ended : (run state).result = .error fault) :
    failing fault (run state).state := by
  apply meets.of_error holds
  rw [ending, ended]

/-- What is promised of every ending holds where the run ends. -/
theorem last {run : Run σ α} {holds : σ → Prop} (meets : Meets run before (fun _ => holds) fun _ => holds) {state : σ}
    (held : before state) : holds (run.ending state).2 := by
  have met := meets state held
  rcases ended : run.ending state with ⟨_ | _, last⟩
  · rwa [ended] at met
  · rwa [ended] at met

/-- A run that keeps what holds, however it ends, and ends at faults of one kind only. -/
theorem kept {run : Run σ α} {holds : σ → Prop} {wrong : Fault → Prop}
    (meets : Meets run before (fun _ => holds) fun fault last => wrong fault ∧ holds last) {state : σ} (held : before state) :
    (∀ fault, (run.ending state).1 = .error fault → wrong fault) ∧ holds (run.ending state).2 := by
  have met := meets state held
  rcases ended : run.ending state with ⟨fault | value, last⟩
  · rw [ended] at met
    exact ⟨fun other same => by cases same; exact met.1, met.2⟩
  · rw [ended] at met
    exact ⟨nofun, met⟩

/-- More faults may be allowed than the run ends at. -/
theorem allow {run : Run σ α} {after : α → σ → Prop} {allowed : Fault → σ → Prop}
    (meets : Meets run before after allowed)
    (allows : ∀ fault state, allowed fault state → failing fault state) : Meets run before after failing := by
  intro state holds
  have met := meets state holds
  rcases ended : run.ending state with ⟨fault | value, last⟩
  · rw [ended] at met
    exact allows fault last met
  · rw [ended] at met
    exact met

/-- Less may be promised than the run keeps. -/
theorem promise {run : Run σ α} {after promised : α → σ → Prop} (meets : Meets run before after failing)
    (promises : ∀ value state, after value state → promised value state) : Meets run before promised failing := by
  intro state holds
  have met := meets state holds
  rcases ended : run.ending state with ⟨_ | value, last⟩
  · rw [ended] at met
    exact met
  · rw [ended] at met
    exact promises value last met

/-- What a run meets, any run that ends alike meets. -/
theorem of_ending {run other : Run σ α} {after : α → σ → Prop} (meets : Meets run before after failing)
    (same : other.ending = run.ending) : Meets other before after failing := by
  intro state holds
  rw [same]
  exact meets state holds

theorem bind {first : Run σ α} {next : α → Run σ β} {middle : α → σ → Prop} {after : β → σ → Prop}
    (starts : Meets first before middle failing)
    (goes : ∀ value, Meets (next value) (middle value) after failing) :
    Meets (first >>= next) before after failing := by
  intro state holds
  rw [ending_bind]
  have started := starts state holds
  rcases ended : first.ending state with ⟨_ | value, last⟩
  · rw [ended] at started
    exact started
  · rw [ended] at started
    exact goes value last started

theorem pure {value : α} {after : α → σ → Prop} (holds : ∀ state, before state → after value state) :
    Meets (Pure.pure value) before after failing :=
  holds

theorem raise {fault : Fault} {after : α → σ → Prop} (fails : ∀ state, before state → failing fault state) :
    Meets (Run.raise fault) before after failing :=
  fails

theorem tell {event : Event} : Meets (Run.tell event) before (fun _ => before) failing :=
  fun _ holds => holds

theorem current : Meets (Run.current : Run σ σ) before (fun _ => before) failing :=
  fun _ holds => holds

/-- A line that is known to be a statement is read as that statement. -/
theorem read {line : Text} {statement : Statement} (known : Statement.ofLine line = some statement) :
    Meets (Run.read line) before (fun found state => found = statement ∧ before state) failing := by
  intro state holds
  rw [ending_read_of_some known]
  exact ⟨rfl, holds⟩

/-- A line that need not be a statement is read, or is found to be none. -/
theorem readAny (line : Text) (unknown : ∀ state, before state → failing (.unrecognizedLine line.trim) state) :
    Meets (Run.read line) before (fun _ => before) failing := by
  intro state holds
  cases known : Statement.ofLine line with
  | none =>
    rw [ending_read_of_none known]
    exact unknown state holds
  | some statement =>
    rw [ending_read_of_some known]
    exact holds

theorem test {check : σ → Except Fault α} {after : α → σ → Prop}
    (passes : ∀ state value, before state → check state = .ok value → after value state)
    (fails : ∀ state fault, before state → check state = .error fault → failing fault state) :
    Meets (Run.test check) before after failing := by
  intro state holds
  rw [ending_test]
  cases checked : check state with
  | error fault => exact fails state fault holds checked
  | ok value => exact passes state value holds checked

theorem step {change : σ → Except Fault σ} {after : Unit → σ → Prop}
    (passes : ∀ state last, before state → change state = .ok last → after () last)
    (fails : ∀ state fault, before state → change state = .error fault → failing fault state) :
    Meets (Run.step change) before after failing := by
  intro state holds
  rw [ending_step]
  cases changed : change state with
  | error fault => exact fails state fault holds changed
  | ok last => exact passes state last holds changed

/-- What each step of a row keeps, the whole row keeps. -/
theorem forM {items : List α} {each : α → Run σ Unit}
    (keeps : ∀ item ∈ items, Meets (each item) before (fun _ => before) failing) :
    Meets (items.forM each) before (fun _ => before) failing := by
  induction items with
  | nil => exact fun _ holds => holds
  | cons item items ih =>
    exact bind (keeps item (by simp)) fun _ => ih fun other member => keeps other (by simp [member])

end Meets

abbrev Keeps (run : Run σ α) (holds : σ → Prop) : Prop :=
  Meets run holds (fun _ => holds) fun _ => holds

namespace Keeps

variable {holds : σ → Prop}

theorem test {check : σ → Except Fault α} : Keeps (Run.test check) holds :=
  Meets.test (fun _ _ held _ => held) fun _ _ held _ => held

/-- A step that fails changes nothing. -/
theorem step {change : σ → Except Fault σ} (changes : ∀ state last, holds state → change state = .ok last → holds last) :
    Keeps (Run.step change) holds :=
  Meets.step changes fun _ _ held _ => held

end Keeps
end Linewise.Run
