import Linewise.Proofs.RunEnding

/-! Two runs that read different texts, so that their faults cannot be the same. They agree where
both end well, with values and states that are related, or where neither does. The first may be
allowed to end well only where something is sound, and then nothing is asked where it is not. -/

namespace Linewise

inductive Agrees {α β : Type} (sound : Prop) (related : α → β → Prop) : Except Fault α → Except Fault β → Prop where
  | ok {value other} (holds : sound) (same : related value other) : Agrees sound related (.ok value) (.ok other)
  | fault {fault other} : Agrees sound related (.error fault) (.error other)
  | unsound {fault result} (broken : ¬ sound) : Agrees sound related (.error fault) result

namespace Agrees

variable {α β : Type} {sound : Prop} {related : α → β → Prop} {first : Except Fault α} {second : Except Fault β}

/-- What is sound may be said in another way. -/
theorem congr {other : Prop} (agrees : Agrees sound related first second) (same : sound ↔ other) :
    Agrees other related first second := by
  rwa [propext same] at agrees

/-- Checks whose values correspond, whatever their faults are. -/
theorem of_toOption {view : α → β} (same : second.toOption = first.toOption.map view) :
    Agrees True (fun value other => other = view value) first second := by
  cases first with
  | error fault =>
    cases second with
    | error other => exact .fault
    | ok other => cases same
  | ok value =>
    cases second with
    | error other => cases same
    | ok other => exact .ok trivial (Option.some.inj same)

/-- The first passes exactly where the second does and all is sound. -/
theorem exists_iff (agrees : Agrees sound related first second) :
    (∃ value, first = .ok value) ↔ (∃ other, second = .ok other) ∧ sound := by
  cases agrees with
  | ok holds same => exact ⟨fun _ => ⟨⟨_, rfl⟩, holds⟩, fun _ => ⟨_, rfl⟩⟩
  | fault => exact ⟨nofun, nofun⟩
  | unsound broken => exact ⟨nofun, fun passed => absurd passed.2 broken⟩

end Agrees

namespace Run

variable {σ τ υ α β γ δ : Type}

inductive AgreesEnding (sound : Prop) (after : α → β → σ → τ → Prop) :
    Except Fault α × σ → Except Fault β × τ → Prop where
  | ok {value other state last} (holds : sound) (related : after value other state last) :
    AgreesEnding sound after (.ok value, state) (.ok other, last)
  | fault {fault other state last} : AgreesEnding sound after (.error fault, state) (.error other, last)
  | unsound {fault state ending} (broken : ¬ sound) : AgreesEnding sound after (.error fault, state) ending

/-- What the runs end with agrees as well. -/
theorem AgreesEnding.result {sound : Prop} {after : α → β → σ → τ → Prop} {related : α → β → Prop}
    {first : Except Fault α × σ} {second : Except Fault β × τ} (agrees : AgreesEnding sound after first second)
    (same : ∀ value other state last, after value other state last → related value other) :
    Agrees sound related first.1 second.1 := by
  cases agrees with
  | ok holds kept => exact .ok holds (same _ _ _ _ kept)
  | fault => exact .fault
  | unsound broken => exact .unsound broken

/-- From states that are related as required, the runs agree, and leave states that are related
as promised. -/
def AgreesTo (sound : Prop) (before : σ → τ → Prop) (after : α → β → σ → τ → Prop) (first : Run σ α) (second : Run τ β) :
    Prop :=
  ∀ state other, before state other → AgreesEnding sound after (first.ending state) (second.ending other)

namespace AgreesTo

variable {sound : Prop} {before : σ → τ → Prop} {after : α → β → σ → τ → Prop} {first : Run σ α} {second : Run τ β}

theorem congr {other : Prop} (agrees : AgreesTo sound before after first second) (same : sound ↔ other) :
    AgreesTo other before after first second := by
  rwa [propext same] at agrees

theorem promise {left : α → β → σ → τ → Prop} (agrees : AgreesTo sound before after first second)
    (weaker : ∀ value other state last, after value other state last → left value other state last) :
    AgreesTo sound before left first second := by
  intro state last holds
  have agreed := agrees state last holds
  generalize first.ending state = ended, second.ending last = met at agreed
  cases agreed with
  | ok passes related => exact .ok passes (weaker _ _ _ _ related)
  | fault => exact .fault
  | unsound broken => exact .unsound broken

theorem bind {rest : Prop} {next : α → Run σ γ} {goal : β → Run τ δ} {last : γ → δ → σ → τ → Prop}
    (starts : AgreesTo sound before after first second)
    (goes : ∀ value other, AgreesTo rest (after value other) last (next value) (goal other)) :
    AgreesTo (sound ∧ rest) before last (first >>= next) (second >>= goal) := by
  intro state other holds
  rw [ending_bind, ending_bind]
  have agreed := starts state other holds
  generalize first.ending state = ended, second.ending other = met at agreed
  cases agreed with
  | fault => exact .fault
  | unsound broken => exact .unsound fun both => broken both.1
  | @ok value reached _ _ holds related =>
    have later := goes value reached _ _ related
    dsimp only
    generalize (next value).ending _ = left, (goal reached).ending _ = kept at later
    cases later with
    | ok passes related => exact .ok ⟨holds, passes⟩ related
    | fault => exact .fault
    | unsound broken => exact .unsound fun both => broken both.2

theorem pure {value : α} {other : β} (holds : ∀ state last, before state last → after value other state last) :
    AgreesTo True before after (Pure.pure value) (Pure.pure other) :=
  fun state last related => .ok trivial (holds state last related)

theorem raise {fault found : Fault} : AgreesTo sound before after (Run.raise fault) (Run.raise found) :=
  fun _ _ _ => .fault

theorem tell {event other : Event} : AgreesTo True before (fun _ _ => before) (Run.tell event) (Run.tell other) :=
  fun _ _ related => .ok trivial related

theorem test {check : σ → Except Fault α} {other : τ → Except Fault β} {related : α → β → Prop}
    (agrees : ∀ state last, before state last → Agrees sound related (check state) (other last)) :
    AgreesTo sound before (fun value found state last => related value found ∧ before state last)
      (Run.test check) (Run.test other) := by
  intro state last holds
  rw [ending_test, ending_test]
  have agreed := agrees state last holds
  generalize check state = ended, other last = met at agreed
  cases agreed with
  | ok passes same => exact .ok passes ⟨same, holds⟩
  | fault => exact .fault
  | unsound broken => exact .unsound broken

theorem step {change : σ → Except Fault σ} {other : τ → Except Fault τ} {left : σ → τ → Prop}
    (agrees : ∀ state last, before state last → Agrees sound left (change state) (other last)) :
    AgreesTo sound before (fun _ _ => left) (Run.step change) (Run.step other) := by
  intro state last holds
  rw [ending_step, ending_step]
  have agreed := agrees state last holds
  generalize change state = ended, other last = met at agreed
  cases agreed with
  | ok passes same => exact .ok passes same
  | fault => exact .fault
  | unsound broken => exact .unsound broken

/-- Lines that are the same statement but for a view of it are read alike, and it goes on from there. -/
theorem read {line other : Text} {view : Statement → Statement} {next : Statement → Run σ α} {goal : Statement → Run τ β}
    (same : Statement.ofLine other = (Statement.ofLine line).map view)
    (goes : ∀ statement, Statement.ofLine line = some statement →
      AgreesTo sound before after (next statement) (goal (view statement))) :
    AgreesTo sound before after (Run.read line >>= next) (Run.read other >>= goal) := by
  intro state last holds
  cases known : Statement.ofLine line with
  | none =>
    rw [known] at same
    rw [ending_bind_of_error (ending_read_of_none known state), ending_bind_of_error (ending_read_of_none same last)]
    exact .fault
  | some statement =>
    rw [known] at same
    rw [ending_bind_of_ok (ending_read_of_some known state), ending_bind_of_ok (ending_read_of_some same last)]
    exact goes statement known state last holds

/-- A row of steps agrees with a row of as many, where each step does with its counterpart. -/
theorem forM {items : List γ} {view : γ → δ} {each : γ → Run σ Unit} {other : δ → Run τ Unit} {sound : γ → Prop}
    (agrees : ∀ item ∈ items, AgreesTo (sound item) before (fun _ _ => before) (each item) (other (view item))) :
    AgreesTo (∀ item ∈ items, sound item) before (fun _ _ => before) (items.forM each) ((items.map view).forM other) := by
  induction items with
  | nil => exact fun _ _ related => .ok nofun related
  | cons item items ih =>
    have goes := bind (agrees item (by simp)) fun _ _ => ih fun later member => agrees later (by simp [member])
    exact goes.congr List.forall_mem_cons.symm

end AgreesTo
end Run
end Linewise
