import Linewise.Proofs.RunEnding

/-! What a run tells on its way. The parts of a run tell one after the other, up to the first
that ends at a fault, and what a part tells may depend on how the parts before it have ended. -/

namespace Linewise.Run

variable {σ τ α β : Type} {state after : σ} {event : Event} {told more : List Event}

def events (run : Run σ α) (state : σ) : List Event :=
  (run state).events

@[simp] theorem events_pure (value : α) (state : σ) : events (pure value : Run σ α) state = [] :=
  rfl

@[simp] theorem events_raise (fault : Fault) (state : σ) : events (raise fault : Run σ α) state = [] :=
  rfl

@[simp] theorem events_tell (event : Event) (state : σ) : events (tell event) state = [event] :=
  rfl

@[simp] theorem events_current (state : σ) : events (current : Run σ σ) state = [] :=
  rfl

@[simp] theorem events_replace (after state : σ) : events (replace after) state = [] :=
  rfl

@[simp] theorem events_test (check : σ → Except Fault α) (state : σ) : events (test check) state = [] :=
  rfl

@[simp] theorem events_within (start : τ) (inner : Run τ α) (state : σ) :
    events (within start inner : Run σ α) state = events inner start :=
  rfl

@[simp] theorem events_step (change : σ → Except Fault σ) (state : σ) : events (step change) state = [] := by
  unfold events step
  cases change state <;> rfl

theorem events_bind (first : Run σ α) (next : α → Run σ β) (state : σ) :
    events (first >>= next) state = events first state ++
      match ending first state with
      | (.error _, _) => []
      | (.ok value, after) => events (next value) after := by
  unfold events ending
  rw [bind_apply]
  rcases first state with ⟨_ | _, _, told⟩
  · exact (List.append_nil told).symm
  · rfl

theorem events_bind_of_ok {first : Run σ α} {next : α → Run σ β} {value : α}
    (ended : ending first state = (.ok value, after)) :
    events (first >>= next) state = events first state ++ events (next value) after := by
  rw [events_bind, ended]

/-- What was told in a run in two parts was told in one of them. -/
theorem mem_events_bind_iff {first : Run σ α} {next : α → Run σ β} :
    event ∈ events (first >>= next) state ↔ event ∈ events first state ∨
      ∃ value after, ending first state = (.ok value, after) ∧ event ∈ events (next value) after := by
  rw [events_bind, List.mem_append]
  rcases ending first state with ⟨_ | value, after⟩
  · simp
  · refine or_congr_right ⟨fun later => ⟨value, after, rfl, later⟩, ?_⟩
    rintro ⟨_, _, same, later⟩
    cases same
    exact later

theorem events_read_of_some {line : Text} {statement : Statement} (known : Statement.ofLine line = some statement)
    (state : σ) : events (read line) state = [.read line.trim statement] := by
  unfold read
  rw [known]
  rfl

def Quiet (run : Run σ α) : Prop :=
  ∀ state, events run state = []

namespace Quiet

theorem bind {first : Run σ α} {next : α → Run σ β} (starts : Quiet first) (goes : ∀ value, Quiet (next value)) :
    Quiet (first >>= next) := by
  intro state
  rw [events_bind, starts state, List.nil_append]
  rcases ending first state with ⟨_ | value, after⟩
  · rfl
  · exact goes value after

theorem forM {items : List α} {each : α → Run σ Unit} (quiet : ∀ item, Quiet (each item)) :
    Quiet (items.forM each) := by
  induction items with
  | nil => exact fun _ => rfl
  | cons item items ih => exact bind (quiet item) fun _ => ih

end Quiet

/-- Where a run ends well it has told these events, whatever it began with. -/
def Tells (run : Run σ α) (told : List Event) : Prop :=
  ∀ state value after, ending run state = (.ok value, after) → events run state = told

namespace Tells

theorem of_quiet {run : Run σ α} (quiet : Quiet run) : Tells run [] :=
  fun state _ _ _ => quiet state

theorem bind {first : Run σ α} {next : α → Run σ β} (starts : Tells first told) (goes : ∀ value, Tells (next value) more) :
    Tells (first >>= next) (told ++ more) := by
  intro state value after ended
  obtain ⟨given, middle, started, went⟩ := ending_bind_eq_ok_iff.mp ended
  rw [events_bind_of_ok started, starts state given middle started, goes given middle value after went]

theorem bind_quiet {first : Run σ α} {next : α → Run σ β} (starts : Tells first told) (goes : ∀ value, Quiet (next value)) :
    Tells (first >>= next) told := by
  have tells := starts.bind fun value => of_quiet (goes value)
  rwa [List.append_nil] at tells

theorem quiet_bind {first : Run σ α} {next : α → Run σ β} (starts : Quiet first) (goes : ∀ value, Tells (next value) told) :
    Tells (first >>= next) told :=
  (of_quiet starts).bind goes

theorem tell (event : Event) : Tells (Run.tell event : Run σ Unit) [event] :=
  fun _ _ _ _ => rfl

theorem read {line : Text} {statement : Statement} (known : Statement.ofLine line = some statement) :
    Tells (Run.read line : Run σ Statement) [.read line.trim statement] :=
  fun state _ _ _ => events_read_of_some known state

theorem forM {items : List α} {each : α → Run σ Unit} {tells : α → List Event}
    (each_tells : ∀ item ∈ items, Tells (each item) (tells item)) : Tells (items.forM each) (items.flatMap tells) := by
  induction items with
  | nil => exact fun _ _ _ _ => rfl
  | cons item items ih =>
    obtain ⟨here, later⟩ := List.forall_mem_cons.mp each_tells
    exact bind here fun _ => ih later

end Tells

/-- A run never tells this event, not even where it ends at a fault. -/
def Omits (run : Run σ α) (event : Event) : Prop :=
  ∀ state, event ∉ events run state

namespace Omits

theorem of_quiet {run : Run σ α} (quiet : Quiet run) : Omits run event := by
  intro state member
  rw [quiet state] at member
  cases member

theorem bind {first : Run σ α} {next : α → Run σ β} (starts : Omits first event)
    (goes : ∀ value, Omits (next value) event) : Omits (first >>= next) event := by
  intro state member
  rcases mem_events_bind_iff.mp member with early | ⟨value, after, -, late⟩
  · exact starts state early
  · exact goes value after late

theorem tell {other : Event} (apart : event ≠ other) : Omits (Run.tell other : Run σ Unit) event :=
  fun _ member => apart (List.mem_singleton.mp member)

theorem forM {items : List α} {each : α → Run σ Unit} (omits : ∀ item, Omits (each item) event) :
    Omits (items.forM each) event := by
  induction items with
  | nil => exact of_quiet fun _ => rfl
  | cons item items ih => exact bind (omits item) fun _ => ih

/-- Of a line nothing is told but what it is. -/
theorem read (line : Text) (apart : ∀ statement, event ≠ .read line.trim statement) :
    Omits (Run.read line : Run σ Statement) event := by
  unfold Run.read
  cases Statement.ofLine line with
  | none => exact of_quiet fun _ => rfl
  | some statement => exact bind (tell (apart statement)) fun _ => of_quiet fun _ => rfl

end Omits
end Linewise.Run
