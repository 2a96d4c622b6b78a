import Linewise.Run

/-! A run ends with a result and in a state. What it told on the way is left out here, so
that runs that tell different things can be said to end alike. -/

namespace Linewise.Run

variable {σ τ α β γ : Type}

/-- How a run ends, at a fault or without one. -/
def ending (run : Run σ α) (state : σ) : Except Fault α × σ :=
  ((run state).result, (run state).state)

@[simp] theorem ending_raise (fault : Fault) (state : σ) :
    ending (raise fault : Run σ α) state = (.error fault, state) :=
  rfl

@[simp] theorem ending_tell (event : Event) (state : σ) : ending (tell event) state = (.ok (), state) :=
  rfl

@[simp] theorem ending_current (state : σ) : ending (current : Run σ σ) state = (.ok state, state) :=
  rfl

@[simp] theorem ending_replace (after state : σ) : ending (replace after) state = (.ok (), after) :=
  rfl

@[simp] theorem ending_test (check : σ → Except Fault α) (state : σ) :
    ending (test check) state = (check state, state) :=
  rfl

@[simp] theorem ending_within (start : τ) (inner : Run τ α) (state : σ) :
    ending (within start inner : Run σ α) state = ((ending inner start).1, state) :=
  rfl

theorem ending_step (change : σ → Except Fault σ) (state : σ) :
    ending (step change) state =
      match change state with
      | .error fault => (.error fault, state)
      | .ok after => (.ok (), after) := by
  unfold ending step
  cases change state <;> rfl

theorem ending_step_eq_ok_iff {change : σ → Except Fault σ} {state after : σ} :
    ending (step change) state = (.ok (), after) ↔ change state = .ok after := by
  rw [ending_step]
  cases change state <;> simp

/-- A step that fails leaves the state as it found it. -/
theorem ending_step_eq_error_iff {change : σ → Except Fault σ} {state after : σ} {fault : Fault} :
    ending (step change) state = (.error fault, after) ↔ change state = .error fault ∧ after = state := by
  rw [ending_step]
  cases change state <;> simp [eq_comm]

theorem ending_bind (first : Run σ α) (next : α → Run σ β) (state : σ) :
    ending (first >>= next) state =
      match ending first state with
      | (.error fault, after) => (.error fault, after)
      | (.ok value, after) => ending (next value) after := by
  unfold ending
  rw [bind_apply]
  rcases first state with ⟨_ | _, _, _⟩ <;> rfl

theorem ending_bind_of_ok {first : Run σ α} {next : α → Run σ β} {state after : σ} {value : α}
    (ended : ending first state = (.ok value, after)) :
    ending (first >>= next) state = ending (next value) after := by
  rw [ending_bind, ended]

theorem ending_bind_of_error {first : Run σ α} {next : α → Run σ β} {state after : σ} {fault : Fault}
    (ended : ending first state = (.error fault, after)) :
    ending (first >>= next) state = (.error fault, after) := by
  rw [ending_bind, ended]

/-- A run in two parts ends well where both parts do. -/
theorem ending_bind_eq_ok_iff {first : Run σ α} {next : α → Run σ β} {state last : σ} {result : β} :
    ending (first >>= next) state = (.ok result, last) ↔
      ∃ value after, ending first state = (.ok value, after) ∧
        ending (next value) after = (.ok result, last) := by
  rw [ending_bind]
  rcases ending first state with ⟨_ | value, after⟩
  · simp
  · constructor
    · intro ended
      exact ⟨value, after, rfl, ended⟩
    · rintro ⟨_, _, same, ended⟩
      cases same
      exact ended

/-- Parts that end alike may stand for each other. -/
theorem ending_bind_congr {first second : Run σ α} {next other : α → Run σ β}
    (firsts : ending first = ending second) (nexts : ∀ value, ending (next value) = ending (other value)) :
    ending (first >>= next) = ending (second >>= other) := by
  funext state
  rw [ending_bind, ending_bind, firsts]
  rcases ending second state with ⟨_ | value, after⟩
  · rfl
  · exact congrFun (nexts value) after

/-- A part that ends as another does, but for one fixed value, hands that value on. -/
theorem ending_bind_of_value {first : Run σ α} {second : Run σ β} {value : α} {next : α → Run σ γ}
    (same : ending first = ending (second >>= fun _ => pure value)) :
    ending (first >>= next) = ending (second >>= fun _ => next value) := by
  rw [ending_bind_congr same fun _ => rfl, bind_assoc]
  simp only [pure_bind]

theorem ending_forM_cons (item : α) (items : List α) (each : α → Run σ Unit) (state : σ) :
    ending ((item :: items).forM each) state = ending (each item >>= fun _ => items.forM each) state :=
  rfl

theorem ending_forM_cons_eq_ok_iff {item : α} {items : List α} {each : α → Run σ Unit} {state last : σ} :
    ending ((item :: items).forM each) state = (.ok (), last) ↔
      ∃ after, ending (each item) state = (.ok (), after) ∧
        ending (items.forM each) after = (.ok (), last) := by
  rw [ending_forM_cons, ending_bind_eq_ok_iff]
  constructor
  · intro ⟨_, after, first, rest⟩
    exact ⟨after, first, rest⟩
  · intro ⟨after, first, rest⟩
    exact ⟨(), after, first, rest⟩

/-- Runs over what was made of some items are runs over the items. -/
theorem forM_map_congr {items : List α} {f : α → β} {each : β → Run σ Unit} {other : α → Run σ Unit}
    (same : ∀ item ∈ items, each (f item) = other item) : (items.map f).forM each = items.forM other := by
  induction items with
  | nil => rfl
  | cons item items ih =>
    obtain ⟨here, later⟩ := List.forall_mem_cons.mp same
    change (each (f item) >>= fun _ => (items.map f).forM each) = other item >>= fun _ => items.forM other
    rw [here, ih later]

/-- A row ends at a fault of one of its runs, and those before it have ended well. -/
theorem exists_of_forM_error {items : List α} {each : α → Run σ Unit} {state last : σ} {fault : Fault}
    (failed : ending (items.forM each) state = (.error fault, last)) :
    ∃ before item after middle, items = before ++ item :: after ∧
      ending (before.forM each) state = (.ok (), middle) ∧ ending (each item) middle = (.error fault, last) := by
  induction items generalizing state with
  | nil => cases failed
  | cons item items ih =>
    rcases ended : ending (each item) state with ⟨found | _, middle⟩
    · rw [ending_forM_cons, ending_bind_of_error ended] at failed
      cases failed
      exact ⟨[], item, items, state, rfl, rfl, ended⟩
    · rw [ending_forM_cons, ending_bind_of_ok ended] at failed
      obtain ⟨before, other, after, reached, rfl, passed, fails⟩ := ih failed
      exact ⟨item :: before, other, after, reached, rfl, ending_forM_cons_eq_ok_iff.mpr ⟨middle, ended, passed⟩, fails⟩

theorem ending_read_of_some {line : Text} {statement : Statement}
    (known : Statement.ofLine line = some statement) (state : σ) :
    ending (read line) state = (.ok statement, state) := by
  unfold read
  rw [known]
  rfl

theorem ending_read_of_none {line : Text} (unknown : Statement.ofLine line = none) (state : σ) :
    ending (read line) state = (.error (.unrecognizedLine line.trim), state) := by
  unfold read
  rw [unknown]
  rfl

theorem ending_read_eq_ok_iff {line : Text} {statement : Statement} {state after : σ} :
    ending (read line) state = (.ok statement, after) ↔
      Statement.ofLine line = some statement ∧ after = state := by
  cases known : Statement.ofLine line with
  | none => simp [ending_read_of_none known]
  | some found => simp [ending_read_of_some known, eq_comm]

end Linewise.Run
