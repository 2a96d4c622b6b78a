import Linewise.Event
import Linewise.Fault

/-! A run changes a state, tells events, and ends with a value or at the first fault. A fault
does not undo anything: the state reached and the events told so far stay, and a later run
may go on from there. -/

namespace Linewise

structure Outcome (σ α : Type) where
  result : Except Fault α
  state : σ
  events : List Event

def Run (σ α : Type) :=
  σ → Outcome σ α

namespace Run

variable {σ τ α β : Type}

protected def pure (value : α) : Run σ α :=
  fun state => ⟨.ok value, state, []⟩

protected def bind (first : Run σ α) (next : α → Run σ β) : Run σ β :=
  fun state =>
    match first state with
    | ⟨.error fault, after, events⟩ => ⟨.error fault, after, events⟩
    | ⟨.ok value, after, events⟩ =>
      let rest := next value after
      ⟨rest.result, rest.state, events ++ rest.events⟩

instance : Monad (Run σ) where
  pure := Run.pure
  bind := Run.bind

def raise (fault : Fault) : Run σ α :=
  fun state => ⟨.error fault, state, []⟩

def tell (event : Event) : Run σ Unit :=
  fun state => ⟨.ok (), state, [event]⟩

def current : Run σ σ :=
  fun state => ⟨.ok state, state, []⟩

def replace (state : σ) : Run σ Unit :=
  fun _ => ⟨.ok (), state, []⟩

/-- A test of the state. -/
def test (check : σ → Except Fault α) : Run σ α :=
  fun state => ⟨check state, state, []⟩

/-- A step that keeps the old state where it fails. -/
def step (change : σ → Except Fault σ) : Run σ Unit :=
  fun state =>
    match change state with
    | .error fault => ⟨.error fault, state, []⟩
    | .ok after => ⟨.ok (), after, []⟩

/-- A run with a state of its own, of which only the result and the events stay. -/
def within (start : τ) (inner : Run τ α) : Run σ α :=
  fun state =>
    let outcome := inner start
    ⟨outcome.result, state, outcome.events⟩

/-- Reads a line and tells what it is. -/
def read (line : Text) : Run σ Statement :=
  match Statement.ofLine line with
  | none => raise (.unrecognizedLine line.trim)
  | some statement => do
    tell (.read line.trim statement)
    pure statement

theorem bind_apply (first : Run σ α) (next : α → Run σ β) (state : σ) :
    (first >>= next) state =
      match first state with
      | ⟨.error fault, after, events⟩ => ⟨.error fault, after, events⟩
      | ⟨.ok value, after, events⟩ =>
        ⟨(next value after).result, (next value after).state, events ++ (next value after).events⟩ :=
  rfl

/-- The order of the events is why runs may be regrouped: telling is appending. -/
instance : LawfulMonad (Run σ) := by
  refine LawfulMonad.mk' (Run σ) ?_ ?_ ?_
  · intro α run
    funext state
    change Run.bind run Run.pure state = run state
    unfold Run.bind
    rcases run state with ⟨_ | _, _, _⟩ <;> simp [Run.pure]
  · intro α β value next
    funext state
    change Run.bind (Run.pure value) next state = next value state
    simp [Run.bind, Run.pure]
  · intro α β γ run next last
    funext state
    change Run.bind (Run.bind run next) last state =
      Run.bind run (fun value => Run.bind (next value) last) state
    unfold Run.bind
    rcases run state with ⟨_ | value, after, _⟩
    · rfl
    · rcases h : next value after with ⟨_ | _, _, _⟩ <;> simp [h]

end Run
end Linewise
